/-!
# Character classes

The sources are C and C++ texts, so names and digits are ASCII only.  Blanks are
of two kinds.  `isBlank` is the Unicode property `White_Space`; it is what
trimming removes around an argument.  `isCodeBlank` is what may stand between
the tokens of the code; the vertical tab is not among it.
-/

namespace FlashStrings

/-- A character that can begin a C name. -/
def isNameStart (c : Char) : Bool := c.isAlpha || c == '_'

/-- A character that can stand in a C name. -/
def isNameChar (c : Char) : Bool := c.isAlphanum || c == '_'

/-- A hexadecimal digit of either case. -/
def isHexDigit (c : Char) : Bool :=
  c.isDigit || ('a' ≤ c && c ≤ 'f') || ('A' ≤ c && c ≤ 'F')

/-- An octal digit. -/
def isOctDigit (c : Char) : Bool := '0' ≤ c && c ≤ '7'

/-- A character of the ASCII range. -/
def isAscii (c : Char) : Bool := c.toNat < 0x80

/-- A control character of the ASCII range, the delete character included. -/
def isAsciiControl (c : Char) : Bool := c.toNat < 0x20 || c.toNat == 0x7f

/-- The Unicode property `White_Space`. -/
def isBlank (c : Char) : Bool :=
  let n := c.toNat
  (0x09 ≤ n && n ≤ 0x0d) || n == 0x20 || n == 0x85 || n == 0xa0 || n == 0x1680 ||
    (0x2000 ≤ n && n ≤ 0x200a) || n == 0x2028 || n == 0x2029 || n == 0x202f ||
    n == 0x205f || n == 0x3000

/-- White space between two tokens of the code. -/
def isCodeBlank (c : Char) : Bool :=
  c == ' ' || c == '\t' || c == '\n' || c == '\x0c' || c == '\r'

/-- White space inside one line of the code. -/
def isLineBlank (c : Char) : Bool := c == ' ' || c == '\t'

theorem isNameChar_eq (c : Char) : isNameChar c = (isNameStart c || c.isDigit) := by
  rw [isNameChar, isNameStart, Char.isAlphanum, Bool.or_assoc, Bool.or_comm c.isDigit,
    ← Bool.or_assoc]

theorem isNameChar_of_isNameStart {c : Char} (h : isNameStart c = true) :
    isNameChar c = true := by
  simp only [isNameStart, isNameChar, Bool.or_eq_true, Char.isAlphanum] at *
  exact h.imp_left .inl

theorem isNameChar_of_isDigit {c : Char} (h : c.isDigit = true) : isNameChar c = true := by
  rw [isNameChar_eq, h, Bool.or_true]

theorem isBlank_of_isCodeBlank {c : Char} (h : isCodeBlank c = true) : isBlank c = true := by
  simp only [isCodeBlank, Bool.or_eq_true, beq_iff_eq] at h
  rcases h with (((rfl | rfl) | rfl) | rfl) | rfl <;> decide

end FlashStrings
