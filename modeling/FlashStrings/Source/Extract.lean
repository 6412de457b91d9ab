import FlashStrings.Invocation.Arguments
import FlashStrings.Source.Lexeme

/-!
# Argument texts in the code

`Argument.extract` collects the pieces between an opening parenthesis and its
partner.  A comment counts as one space.  A literal that is not closed and a
parenthesis without a partner are errors.
-/

namespace FlashStrings

namespace Argument

/-- Collect the pieces up to the parenthesis that closes the invocation.
`depth` counts the parentheses open inside of it, `found` holds the pieces so
far, last one first, and `width` their characters.  The answer has the width
through the closing parenthesis. -/
def collect (depth : Nat) (found : List Piece) (width : Nat) :
    List Char → Except ArgumentError (List Piece × Nat)
  | [] => .error .unbalancedParentheses
  | c :: s =>
    if c = '(' then collect (depth + 1) (.char c :: found) (width + 1) s
    else if c = ')' then
      match depth with
      | 0 => .ok (found.reverse, width + 1)
      | depth + 1 => collect depth (.char c :: found) (width + 1) s
    else if c = '"' ∨ c = '\'' then
      match h : quoted? c s with
      | some (body, rest) =>
        have : rest.length < s.length + 1 := by have := quoted?_length h; omega
        collect depth (.literal c body :: found) (width + body.length + 2) rest
      | none => .error .unterminatedString
    else
      match h : Lexeme.comment? (c :: s) with
      | some n =>
        have := Lexeme.comment?_pos h
        collect depth (.char ' ' :: found) (width + n) ((c :: s).drop n)
      | none => collect depth (.char c :: found) (width + 1) s
termination_by s => s.length

/-- The pieces behind an opening parenthesis and the width through its
partner. -/
def extract (s : List Char) : Except ArgumentError (List Piece × Nat) := collect 0 [] 0 s

/-- Whether one of the names stands among the pieces as a word.  `word` holds the
characters of a word that has begun, last one first. -/
def mentions (names : List (List Char)) (word : List Char) : List Piece → Bool
  | [] => named
  | .char c :: ps =>
    if isNameChar c then mentions names (c :: word) ps else named || mentions names [] ps
  | .literal .. :: ps => named || mentions names [] ps
where
  /-- Whether the word is one of the names. -/
  named : Bool :=
    match word.reverse with
    | [] => false
    | c :: cs => isNameStart c && names.contains (c :: cs)

end Argument

end FlashStrings
