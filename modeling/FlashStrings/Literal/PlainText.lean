import FlashStrings.Literal.Initializer

/-!
# Plain text as literal content

`escapeText` writes a plain text as the content of a literal.  A backslash and a
double quote get a backslash, control characters become escape sequences, and
all else stands for itself.
-/

namespace FlashStrings

/-- One character of a plain text, written for a literal. -/
def escapeChar (c : Char) : List Char :=
  match c with
  | '\\' => ['\\', '\\']
  | '"' => ['\\', '"']
  | '\n' => ['\\', 'n']
  | '\r' => ['\\', 'r']
  | '\t' => ['\\', 't']
  | c => if isAsciiControl c then '\\' :: 'x' :: hexByte c.toNat.toUInt8 else [c]

/-- A plain text as the content of a literal. -/
def escapeText (text : String) : String :=
  String.ofList (text.toList.flatMap escapeChar)

/-- An identifier as display text: its underscores become spaces. -/
def displayText (identifier : String) : String :=
  identifier.map fun c => if c = '_' then ' ' else c

end FlashStrings
