/-!
# Glob patterns

A pattern is a list of tokens.  `?` stands for one character, `*` for any
characters, `[...]` and `[!...]` for a character in or out of a set, and `**`,
as a whole component of a path, for any components.  All of them match the
separator `/` too.

`Glob.parse` reads a pattern or says what is wrong with it and where.
-/

namespace FlashStrings

namespace Glob

/-- A member of a character set. -/
inductive CharSpec where
  | single (c : Char)
  /-- All characters between two, both included. -/
  | range (first last : Char)
  deriving DecidableEq, Repr

/-- A token of a pattern. -/
inductive Token where
  /-- A character that stands for itself. -/
  | char (c : Char)
  /-- `?`. -/
  | anyChar
  /-- `*`. -/
  | anySequence
  /-- `**` as a component, with the separator behind it. -/
  | anyComponents
  /-- `[...]`. -/
  | within (specs : List CharSpec)
  /-- `[!...]`. -/
  | except (specs : List CharSpec)
  deriving DecidableEq, Repr

/-- What can be wrong with a pattern. -/
inductive Fault where
  | badWildcards
  | badRecursive
  | badRange
  deriving DecidableEq, Repr

/-- The fault in words. -/
def Fault.message : Fault → String
  | .badWildcards => "wildcards are either regular `*` or recursive `**`"
  | .badRecursive => "recursive wildcards must form a single path component"
  | .badRange => "invalid range pattern"

/-- A fault and the number of characters before it. -/
structure Error where
  /-- The number of characters before the fault. -/
  position : Nat
  fault : Fault
  deriving DecidableEq, Repr

/-- The error in words. -/
def Error.message (e : Error) : String :=
  s!"Pattern syntax error near position {e.position}: " ++ e.fault.message

/-- Whether a text for a path is read as a pattern; all other texts are plain
paths. -/
def isPattern (text : String) : Bool := text.toList.any fun c => c == '*' || c == '?'

/-! ## Reading -/

/-- The members of a character set.  A hyphen between two characters makes a
range. -/
def charSpecs : List Char → List CharSpec
  | a :: '-' :: b :: s => .range a b :: charSpecs s
  | a :: s => .single a :: charSpecs s
  | [] => []

/-- A character set behind its `[`, as a token and its width.  A set has at least
one member, which may be a closing bracket. -/
def charSet? (s : List Char) : Option (Token × Nat) :=
  let (negated, s) := match s with
    | '!' :: s => (true, s)
    | s => (false, s)
  match s with
  | [] => none
  | first :: s =>
    let more := s.takeWhile (· != ']')
    if more.length = s.length then none
    else
      let specs := charSpecs (first :: more)
      some (if negated then (.except specs, more.length + 3) else (.within specs, more.length + 2))

/-- Put `**` behind the tokens read so far.  Directly behind another one it says
nothing new, except at the start of the pattern. -/
def pushComponents (found : List Token) : List Token :=
  match found with
  | .anyComponents :: _ :: _ => found
  | _ => .anyComponents :: found

/-- The tokens of a pattern.  `found` are those read so far, last one first,
`position` counts the characters read, and `before` is the last of them. -/
def readTokens (found : List Token) (position : Nat) (before : Option Char) :
    List Char → Except Error (List Token)
  | [] => .ok found.reverse
  | '*' :: '*' :: '*' :: _ => .error ⟨position + 2, .badWildcards⟩
  | '*' :: '*' :: s =>
    if before.isSome && before != some '/' then .error ⟨position - 1, .badRecursive⟩
    else
      match s with
      | [] => readTokens (pushComponents found) (position + 2) (some '*') []
      | '/' :: s => readTokens (pushComponents found) (position + 3) (some '/') s
      | _ => .error ⟨position + 2, .badRecursive⟩
  | '*' :: s => readTokens (.anySequence :: found) (position + 1) (some '*') s
  | '?' :: s => readTokens (.anyChar :: found) (position + 1) (some '?') s
  | '[' :: s =>
    match charSet? s with
    | none => .error ⟨position, .badRange⟩
    | some (t, width) =>
      readTokens (t :: found) (position + 1 + width) (some ']') (s.drop width)
  | c :: s => readTokens (.char c :: found) (position + 1) (some c) s
termination_by s => s.length
decreasing_by
  all_goals simp only [List.length_drop, List.length_cons, List.length_nil]
  all_goals omega

/-- Read a pattern. -/
def parse (pattern : String) : Except Error (List Token) := readTokens [] 0 none pattern.toList

/-! ## Matching -/

/-- Whether a character is a member of a set. -/
def CharSpec.holds (spec : CharSpec) (c : Char) : Bool :=
  match spec with
  | .single d => c == d
  | .range first last => first ≤ c && c ≤ last

/-- Whether a predicate holds of some end of a text, the whole text and the empty
end included. -/
def someEnd (p : List Char → Bool) : List Char → Bool
  | [] => p []
  | c :: s => p (c :: s) || someEnd p s

/-- Whether a predicate holds of what follows some separator of a text, or of the
empty end. -/
def someComponentEnd (p : List Char → Bool) : List Char → Bool
  | [] => p []
  | c :: s => (c == '/' && p s) || someComponentEnd p s

/-- Whether a list of tokens matches a whole text. -/
def matchesText : List Token → List Char → Bool
  | [], s => s.isEmpty
  | .anySequence :: ts, s => someEnd (matchesText ts) s
  | .anyComponents :: ts, s => matchesText ts s || someComponentEnd (matchesText ts) s
  | _ :: _, [] => false
  | .char d :: ts, c :: s => c == d && matchesText ts s
  | .anyChar :: ts, _ :: s => matchesText ts s
  | .within specs :: ts, c :: s => specs.any (·.holds c) && matchesText ts s
  | .except specs :: ts, c :: s => !specs.any (·.holds c) && matchesText ts s

/-- Whether a pattern matches a text. -/
def matchesString (ts : List Token) (text : String) : Bool := matchesText ts text.toList

end Glob

end FlashStrings
