import FlashStrings.Invocation.Error
import FlashStrings.Invocation.Piece

/-!
# Splitting at commas

The arguments of an invocation are the parts between the commas that stand
outside of literals and parentheses.  A literal that is not closed and
parentheses that do not pair up are errors; of two errors the one that stands
first in the text is reported.
-/

namespace FlashStrings

namespace Argument

/-- Put a piece in front of the first part. -/
def pushFirst (p : Piece) : List (List Piece) → List (List Piece)
  | [] => [[p]]
  | part :: parts => (p :: part) :: parts

/-- The parts between the commas at depth zero.  `closed` says that no unclosed
literal follows the pieces. -/
def split (closed : Bool) (depth : Nat) : List Piece → Except ArgumentError (List (List Piece))
  | [] =>
    if !closed then .error .unterminatedString
    else if depth ≠ 0 then .error .unbalancedParentheses
    else .ok [[]]
  | .char '(' :: ps => (split closed (depth + 1) ps).map (pushFirst (.char '('))
  | .char ')' :: ps =>
    match depth with
    | 0 => .error .unbalancedParentheses
    | depth + 1 => (split closed depth ps).map (pushFirst (.char ')'))
  | .char ',' :: ps =>
    if depth = 0 then (split closed 0 ps).map ([] :: ·)
    else (split closed depth ps).map (pushFirst (.char ','))
  | p :: ps => (split closed depth ps).map (pushFirst p)

end Argument

/-- The arguments in the text between the parentheses of an invocation. -/
def splitArguments (text : String) : Except ArgumentError (List String) :=
  let (pieces, unclosed) := Argument.read text.toList
  (Argument.split unclosed.isEmpty 0 pieces).map (·.map Argument.shown)

end FlashStrings
