import FlashStrings.Json.Basic
import FlashStrings.Literal.Initializer

/-!
# Writing JSON

Values are written over several lines: every item and member on a line of its
own, indented by two spaces for each array or object around it.  An empty array
or object stays on one line.  Of the characters of a text only quotes,
backslashes and controls are escaped.
-/

namespace FlashStrings

namespace Json

/-- One character of a text between its quotes. -/
def escaped (c : Char) : List Char :=
  match c with
  | '"' => ['\\', '"']
  | '\\' => ['\\', '\\']
  | '\x08' => ['\\', 'b']
  | '\x0c' => ['\\', 'f']
  | '\n' => ['\\', 'n']
  | '\r' => ['\\', 'r']
  | '\t' => ['\\', 't']
  | c => if c.toNat < 0x20 then ['\\', 'u', '0', '0'] ++ hexByte c.toNat.toUInt8 else [c]

/-- A text with its quotes. -/
def quote (s : String) : List Char := '"' :: s.toList.flatMap escaped ++ ['"']

/-- The start of a line at a depth. -/
def newline (depth : Nat) : List Char := '\n' :: List.replicate (2 * depth) ' '

mutual

/-- The lines of a value at a depth. -/
def lines (depth : Nat) : Json → List Char
  | .null => "null".toList
  | .bool b => (if b then "true" else "false").toList
  | .num n => Nat.toDigits 10 (n.getD 0)
  | .text s => quote (s.getD "")
  | .array [] => ['[', ']']
  | .array (j :: js) =>
    '[' :: newline (depth + 1) ++ lines (depth + 1) j ++ itemLines (depth + 1) js ++
      newline depth ++ [']']
  | .object [] => ['{', '}']
  | .object ((key, j) :: members) =>
    '{' :: newline (depth + 1) ++ quote (key.getD "") ++ [':', ' '] ++ lines (depth + 1) j ++
      memberLines (depth + 1) members ++ newline depth ++ ['}']

/-- The items of an array behind the first one. -/
def itemLines (depth : Nat) : List Json → List Char
  | [] => []
  | j :: js => ',' :: newline depth ++ lines depth j ++ itemLines depth js

/-- The members of an object behind the first one. -/
def memberLines (depth : Nat) : List (Option String × Json) → List Char
  | [] => []
  | (key, j) :: members =>
    ',' :: newline depth ++ quote (key.getD "") ++ [':', ' '] ++ lines depth j ++
      memberLines depth members

end

/-- A value as text. -/
def render (j : Json) : String := String.ofList (lines 0 j)

end Json

end FlashStrings
