/-!
# Cursor

A place in a text, as what stands before it and what follows.  The cursor moves
by a number of characters and never changes the text (`text_advance`).
-/

namespace FlashStrings

/-- A place in a text. -/
structure Cursor where
  /-- The characters before the cursor, the nearest first. -/
  before : List Char
  /-- The characters behind the cursor. -/
  after : List Char
  deriving DecidableEq, Repr

namespace Cursor

/-- The cursor at the start of a text. -/
def start (text : List Char) : Cursor := ⟨[], text⟩

/-- The text that the cursor stands in. -/
def text (c : Cursor) : List Char := c.before.reverse ++ c.after

/-- The number of characters before the cursor. -/
def offset (c : Cursor) : Nat := c.before.length

/-- The cursor some characters further on. -/
def advance (c : Cursor) (width : Nat) : Cursor :=
  ⟨(c.after.take width).reverseAux c.before, c.after.drop width⟩

@[simp] theorem text_advance (c : Cursor) (width : Nat) : (c.advance width).text = c.text := by
  simp [text, advance, List.reverseAux_eq]

theorem length_after_advance (c : Cursor) (width : Nat) :
    (c.advance width).after.length = c.after.length - width := by
  simp [advance]

theorem reverse_before_advance (c : Cursor) (width : Nat) :
    (c.advance width).before.reverse = c.before.reverse ++ c.after.take width := by
  rw [advance, List.reverseAux_eq, List.reverse_append, List.reverse_reverse]

/-! ## Lines -/

/-- The line of the cursor, from one. -/
def line (c : Cursor) : Nat := c.before.count '\n' + 1

/-- The characters of the line that stand before the cursor, the nearest first. -/
def lineBefore (c : Cursor) : List Char := c.before.takeWhile (· != '\n')

/-- The column of the cursor in characters, from one. -/
def col (c : Cursor) : Nat := c.lineBefore.length + 1

/-- The whole line, without the newline and the carriage returns at its end. -/
def lineText (c : Cursor) : List Char :=
  let line := c.lineBefore.reverse ++ c.after.takeWhile (· != '\n')
  (line.reverse.dropWhile (· == '\r')).reverse

/-- Whether only blanks stand between the start of the line and the cursor. -/
def atLineStart (c : Cursor) : Bool :=
  c.lineBefore.all fun b => b == ' ' || b == '\t' || b == '\r'

end Cursor

end FlashStrings
