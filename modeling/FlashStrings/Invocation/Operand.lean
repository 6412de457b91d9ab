import FlashStrings.Invocation.Names
import FlashStrings.Invocation.Piece
import FlashStrings.Literal.Concat

/-!
# Operands

The value of an argument is a sequence of literals and string defines, possibly
inside parentheses.  A single bare word that no string define names is kept as a
word: behind the first value it may be a locale code.
-/

namespace FlashStrings

/-- A value after its classification. -/
inductive Operand where
  /-- Nothing but blanks and parentheses. -/
  | nothing
  /-- A bare word in the form of a locale code. -/
  | word (word : String)
  /-- The content of the literals and string defines, put together. -/
  | text (content : String)
  | other (shown : String)
  deriving DecidableEq, Repr

namespace Argument

/-- Whether the partner of an opening parenthesis is the last piece; `depth`
counts the parentheses open at this place. -/
def closesAtEnd : Nat → List Piece → Bool
  | _, [] => false
  | depth, .char '(' :: ps => closesAtEnd (depth + 1) ps
  | depth, .char ')' :: ps => if depth ≤ 1 then ps.isEmpty else closesAtEnd (depth - 1) ps
  | depth, _ :: ps => closesAtEnd depth ps

/-- The pieces inside parentheses that wrap the whole text. -/
def unwrap? : List Piece → Option (List Piece)
  | .char '(' :: ps => if closesAtEnd 1 ps then some (trim ps.dropLast) else none
  | _ => none

theorem length_of_unwrap? {ps inner : List Piece} (h : unwrap? ps = some inner) :
    inner.length < ps.length := by
  unfold unwrap? at h
  split at h
  · next rest =>
    split at h
    · obtain rfl := Option.some.inj h
      have := length_trim_le rest.dropLast
      rw [List.length_dropLast] at this
      simp only [List.length_cons]
      omega
    · simp at h
  · simp at h

/-- Take away all parentheses that wrap the whole text. -/
def unwrap (ps : List Piece) : List Piece :=
  match h : unwrap? ps with
  | some inner => have := length_of_unwrap? h; unwrap inner
  | none => ps
termination_by ps.length

/-- The contents of a sequence of literals and string defines.  `word` holds the
characters of a name that has begun, last one first. -/
def segments? (defines : Defines) (word : List Char) : List Piece → Option (List (List Char))
  | [] => flush []
  | .char c :: ps =>
    if isNameChar c then segments? defines (c :: word) ps
    else if isBlank c then do flush (← segments? defines [] ps)
    else none
  | .literal '"' body :: ps => do flush (body :: (← segments? defines [] ps))
  | .literal .. :: _ => none
where
  /-- Put the content that the word names in front of the others. -/
  flush (rest : List (List Char)) : Option (List (List Char)) :=
    match word with
    | [] => some rest
    | _ => (defines.get? (String.ofList word.reverse)).map fun content => content.toList :: rest

/-- Classify the value of an argument. -/
def operand (defines : Defines) (ps : List Piece) : Operand :=
  let ps := unwrap (trim ps)
  let text := shown ps
  if ps.isEmpty then .nothing
  else if isLocaleCode text then
    match defines.get? text with
    | some content => .text content
    | none => .word text
  else
    match segments? defines [] ps with
    | some segments => .text (String.ofList (concatSegments segments))
    | none => .other text

end Argument

end FlashStrings
