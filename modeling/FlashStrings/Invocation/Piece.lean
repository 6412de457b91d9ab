import FlashStrings.Text.Quoted
import FlashStrings.Text.Trim

/-!
# Pieces of an argument text

The text between the parentheses of an invocation is read as a list of pieces: a
closed literal is one piece, and every other character is one of its own.  So
whoever looks for a comma, a colon or a parenthesis among the pieces never looks
into a literal.

`Argument.read` makes the pieces; `text_read` says that they are the text.
-/

namespace FlashStrings

/-- A literal or a single character outside of literals. -/
inductive Piece where
  /-- A character outside of literals. -/
  | char (c : Char)
  /-- A closed literal: its quote and its content. -/
  | literal (quote : Char) (body : List Char)
  deriving DecidableEq, Repr

/-- The text of a piece. -/
def Piece.text : Piece → List Char
  | .char c => [c]
  | .literal q body => q :: body ++ [q]

/-- Whether the piece is a blank outside of literals. -/
def Piece.isBlank : Piece → Bool
  | .char c => FlashStrings.isBlank c
  | .literal .. => false

namespace Argument

/-- The text of a list of pieces. -/
def text (ps : List Piece) : List Char := ps.flatMap Piece.text

/-- The text of a list of pieces, as it is shown to the user. -/
def shown (ps : List Piece) : String := String.ofList (text ps)

/-- The pieces without the blanks at both ends. -/
def trim (ps : List Piece) : List Piece := trimWhile Piece.isBlank ps

theorem length_trim_le (ps : List Piece) : (trim ps).length ≤ ps.length :=
  length_trimWhile_le Piece.isBlank ps

/-- The pieces of a text, and the unclosed literal at its end if there is one. -/
def read : List Char → List Piece × List Char
  | [] => ([], [])
  | c :: s =>
    if c = '"' ∨ c = '\'' then
      match h : quoted? c s with
      | some (body, rest) =>
        have : rest.length < s.length + 1 := by have := quoted?_length h; omega
        let (ps, tail) := read rest
        (.literal c body :: ps, tail)
      | none => ([], c :: s)
    else
      let (ps, tail) := read s
      (.char c :: ps, tail)
termination_by s => s.length

theorem text_read (s : List Char) : text (read s).1 ++ (read s).2 = s := by
  fun_induction read s with
  | case1 => rfl
  | case2 c s _ body rest h _ ps tail hr ih =>
    rw [hr] at ih
    simp [text, Piece.text, quoted?_eq_some h] at ih ⊢
    exact ih
  | case3 => rfl
  | case4 c s _ ps tail hr ih =>
    rw [hr] at ih
    simp [text, Piece.text] at ih ⊢
    exact ih

end Argument

end FlashStrings
