import FlashStrings.Literal.Concat

/-!
# Initialisers

`initializer` turns the content of a literal into a C initialiser.  Escape
sequences of the content are copied as they are.  A character outside of ASCII
becomes one hexadecimal escape for each byte of its UTF-8 form, unless a
backslash stands before it.  Such an escape would take every hexadecimal digit
behind it, so the literal is broken between the two: `°C` is written as
`"\xc2\xb0" "C"`.
-/

namespace FlashStrings

/-- A digit of a number below sixteen, in lower case. -/
def hexDigit (n : Nat) : Char :=
  if n < 10 then Char.ofNat ('0'.toNat + n) else Char.ofNat ('a'.toNat + (n - 10))

/-- Two hexadecimal digits for one byte. -/
def hexByte (b : UInt8) : List Char := [hexDigit (b.toNat / 16), hexDigit (b.toNat % 16)]

/-- The hexadecimal escapes of the bytes of a character. -/
def byteEscapes (c : Char) : List Char :=
  (String.utf8EncodeChar c).flatMap fun b => '\\' :: 'x' :: hexByte b

namespace Initializer

/-- What stands before the next character of the content. -/
inductive Before where
  /-- Nothing that matters. -/
  | plain
  | backslash
  /-- A hexadecimal escape of the content. -/
  | hexEscape
  /-- The escapes written for a character outside of ASCII. -/
  | byteEscapes
  deriving DecidableEq, Repr

/-- The content as it stands between the outer quotes of the initialiser. -/
def body : Before → List Char → List Char
  | _, [] => []
  | .backslash, c :: s => c :: body (if c = 'x' then .hexEscape else .plain) s
  | before, c :: s =>
    if c = '\\' then c :: body .backslash s
    else if !isAscii c then FlashStrings.byteEscapes c ++ body .byteEscapes s
    else if isHexDigit c then
      match before with
      | .hexEscape => c :: body .hexEscape s
      | .byteEscapes => literalBreak ++ c :: body .plain s
      | _ => c :: body .plain s
    else c :: body .plain s

end Initializer

/-- The C initialiser of a literal content. -/
def initializer (content : List Char) : List Char :=
  '"' :: Initializer.body .plain content ++ ['"']

/-- The C initialiser of a text. -/
def initializerOf (content : String) : String :=
  String.ofList (initializer content.toList)

example : initializer "°C".toList = "\"\\xc2\\xb0\" \"C\"".toList := by decide
example : initializer "\\x7fA".toList = "\"\\x7fA\"".toList := by decide

end FlashStrings
