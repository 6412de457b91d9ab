import FlashStrings.Text.Class

/-!
# Escape sequences

The content of a string literal is the text between its quotes, with its escape
sequences as they were written.  An escape sequence is a backslash and a
character, except that `\x` takes every hexadecimal digit that follows and an
octal escape takes up to three digits.

`Escape` says how far a reader of such a text is into an escape sequence.  After
the last character, `Escape.hex` and `Escape.octal` mean that the sequence is
still *open*: a digit put behind the text would become a part of it.
-/

namespace FlashStrings

/-- The state of a reader of literal content. -/
inductive Escape where
  /-- Outside of an escape sequence, or behind a complete one. -/
  | outside
  /-- Behind a backslash that begins an escape sequence. -/
  | begun
  /-- Behind `\x` and any number of hexadecimal digits. -/
  | hex
  /-- Behind a backslash and one or two octal digits; `more` are still allowed
  after the next one. -/
  | octal (more : Bool)
  deriving DecidableEq, Repr

namespace Escape

/-- The state after one more character. -/
def next (e : Escape) (c : Char) : Escape :=
  match e with
  | .begun => if c = 'x' then .hex else if isOctDigit c then .octal true else .outside
  | .hex => if isHexDigit c then .hex else if c = '\\' then .begun else .outside
  | .octal true =>
    if isOctDigit c then .octal false else if c = '\\' then .begun else .outside
  | .octal false => if isOctDigit c then .outside else if c = '\\' then .begun else .outside
  | .outside => if c = '\\' then .begun else .outside

/-- The state behind a text. -/
def after (s : List Char) : Escape := s.foldl next .outside

/-- Whether an open sequence would take the character as a digit. -/
def absorbs (e : Escape) (c : Char) : Bool :=
  match e with
  | .hex => isHexDigit c
  | .octal _ => isOctDigit c
  | .outside | .begun => false

end Escape

theorem Escape.after_append (s t : List Char) :
    Escape.after (s ++ t) = t.foldl Escape.next (Escape.after s) := by
  simp [Escape.after, List.foldl_append]

example : Escape.after "\\x4f".toList = .hex := by decide
example : Escape.after "\\123".toList = .outside := by decide
example : Escape.after "\\\\x4".toList = .outside := by decide

end FlashStrings
