/-!
# Terminal styles

A style is a list of codes for a terminal.  With colours off a style changes
nothing.  Inside of a styled text a reset ends the inner style only, so the
outer codes are given again behind it.
-/

namespace FlashStrings

/-- A style for a terminal. -/
structure Style where
  /-- The codes, in the order they are written. -/
  codes : List Nat
  deriving DecidableEq, Repr

namespace Style

def bold : Style := ⟨[1]⟩
def dimmed : Style := ⟨[2]⟩
def red : Style := ⟨[31]⟩
def green : Style := ⟨[32]⟩
def yellow : Style := ⟨[33]⟩
def blue : Style := ⟨[34]⟩
def cyan : Style := ⟨[36]⟩
def boldRed : Style := ⟨[1, 31]⟩
def boldYellow : Style := ⟨[1, 33]⟩
def boldCyan : Style := ⟨[1, 36]⟩
def dimmedCyan : Style := ⟨[2, 36]⟩

/-- The sequence that begins the style. -/
def opening (s : Style) : String :=
  "\x1b[" ++ ";".intercalate (s.codes.map toString) ++ "m"

/-- The sequence that ends a style. -/
def reset : String := "\x1b[0m"

/-- A text in the style, when colours are on. -/
def paint (s : Style) (color : Bool) (text : String) : String :=
  if color then s.opening ++ text.replace reset (reset ++ s.opening) ++ reset else text

end Style

/-- A text filled with spaces on the left up to a number of characters. -/
def padLeft (width : Nat) (text : String) : String :=
  String.ofList (List.replicate (width - text.length) ' ') ++ text

/-- A count with its noun: `1 file`, `2 files`. -/
def plural (count : Nat) (noun : String) : String :=
  if count = 1 then s!"{count} {noun}" else s!"{count} {noun}s"

end FlashStrings
