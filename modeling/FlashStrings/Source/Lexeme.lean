import FlashStrings.Text.Quoted

/-!
# Lexemes of the code

How many characters the comments, raw strings and logical lines of C and C++
take.  Every function here gets the text at the place where the lexeme is
expected and answers its width; where the end of the text cuts a lexeme short,
the lexeme runs to the end.

A backslash before a newline joins two lines.  It continues a line comment and
the line of a directive.
-/

namespace FlashStrings

namespace Lexeme

/-- The rest of a line comment, without the newline that ends it. -/
def lineComment : List Char → Nat
  | [] => 0
  | '\\' :: '\n' :: s => lineComment s + 2
  | '\\' :: '\r' :: '\n' :: s => lineComment s + 3
  | c :: s => if c = '\n' then 0 else lineComment s + 1

/-- The rest of a block comment, with the mark that ends it. -/
def blockComment : List Char → Nat
  | [] => 0
  | '*' :: '/' :: _ => 2
  | _ :: s => blockComment s + 1

/-- A comment of either kind at this place. -/
def comment? : List Char → Option Nat
  | '/' :: '/' :: s => some (lineComment s + 2)
  | '/' :: '*' :: s => some (blockComment s + 2)
  | _ => none

theorem comment?_pos {s : List Char} {width : Nat} (h : comment? s = some width) : 0 < width := by
  unfold comment? at h
  split at h <;> simp at h <;> omega

theorem comment?_of_ne {c : Char} (h : c ≠ '/') (s : List Char) : comment? (c :: s) = none := by
  unfold comment?
  split
  · next heq => exact absurd (List.cons.inj heq).1 h
  · next heq => exact absurd (List.cons.inj heq).1 h
  · rfl

/-- A closed literal with both of its quotes at this place. -/
def literal? : List Char → Option Nat
  | [] => none
  | q :: s =>
    if q = '"' ∨ q = '\'' then (quoted? q s).map fun (body, _) => body.length + 2 else none

theorem literal?_pos {s : List Char} {width : Nat} (h : literal? s = some width) : 0 < width := by
  unfold literal? at h
  split at h
  · simp at h
  · split at h
    · obtain ⟨⟨body, rest⟩, _, rfl⟩ := Option.map_eq_some_iff.1 h
      exact Nat.succ_pos _
    · simp at h

/-- The lexeme at this place: a comment, a closed literal or one character. -/
def width (s : List Char) : Nat := ((comment? s).or (literal? s)).getD 1

theorem width_pos (s : List Char) : 0 < width s := by
  unfold width
  match hc : comment? s with
  | some n => simpa using comment?_pos hc
  | none =>
    match hl : literal? s with
    | some n => simpa using literal?_pos hl
    | none => simp

theorem width_cons_pos (c : Char) (s : List Char) : 0 < width (c :: s) := width_pos (c :: s)

/-! ## White space and lines -/

/-- White space and comments. -/
def trivia : List Char → Nat
  | [] => 0
  | c :: s =>
    match h : comment? (c :: s) with
    | some n =>
      have := comment?_pos h
      n + trivia ((c :: s).drop n)
    | none => if isCodeBlank c then trivia s + 1 else 0
termination_by s => s.length

/-- The rest of a line with the lines that continue it, without the newline at
its end.  Comments and literals are parts of the line, and a block comment may
hold newlines. -/
def logicalLine : List Char → Nat
  | [] => 0
  | '\\' :: '\n' :: s => logicalLine s + 2
  | '\\' :: '\r' :: '\n' :: s => logicalLine s + 3
  | c :: s =>
    if c = '\n' then 0
    else
      have := width_pos (c :: s)
      width (c :: s) + logicalLine ((c :: s).drop (width (c :: s)))
termination_by s => s.length

/-! ## Raw strings -/

/-- The name prefixes that make a string literal a raw one. -/
def rawMarks : List String := ["R", "u8R", "uR", "UR", "LR"]

/-- What cannot stand in the delimiter of a raw string. -/
def isBarredFromDelimiter (c : Char) : Bool :=
  isBlank c || c == ')' || c == '\\' || c == '"'

/-- The width through the first occurrence of a word, or of the whole text. -/
def through (word : List Char) : List Char → Nat
  | [] => 0
  | c :: s => if word.isPrefixOf (c :: s) then word.length else through word s + 1

/-- The rest of a raw string behind its opening quote, `delimiter(...)delimiter"`.
A delimiter takes at most sixteen bytes; without one, nothing is taken. -/
def rawString (s : List Char) : Nat :=
  let delimiter := s.takeWhile (· != '(')
  match s.drop delimiter.length with
  | [] => 0
  | _ :: body =>
    if (String.ofList delimiter).utf8ByteSize > 16 || delimiter.any isBarredFromDelimiter then 0
    else delimiter.length + 1 + through (')' :: delimiter ++ ['"']) body

example : lineComment " a\\\n b\nc".toList = 6 := by decide
example : rawString "x(a)\")x\" b".toList = 8 := by decide

end Lexeme

end FlashStrings
