import FlashStrings.Text.Emoji

/-!
# Display width

How many columns of a terminal a text takes.  That is the sum over its
characters, except that an emoji sequence takes two columns, a pictograph in its
plain form takes one, and so does a carriage return with the newline behind it.
-/

namespace FlashStrings

/-- The columns of a character. -/
def charWidth (c : Char) : Nat :=
  let n := c.toNat
  if n < 0xad then 1
  else if inRanges zeroWidthRanges n then 0
  else if inRanges wideRanges n then 2
  else 1

/-- The columns of a text behind what is counted already.  The first `skip`
characters belong to an element that is counted, and `joins` says that a joiner
behind them goes on with its sequence. -/
def widthFrom (skip : Nat) (joins : Bool) : List Char → Nat
  | [] => 0
  | c :: s =>
    match skip with
    | n + 1 => widthFrom n joins s
    | 0 =>
      if joins && c == zeroWidthJoiner && 0 < elementLength s then
        widthFrom (elementLength s) true s
      else if 0 < elementLength (c :: s) then 2 + widthFrom (elementLength (c :: s) - 1) true s
      else if c == '\r' && s.head? == some '\n' then widthFrom 0 false s
      else if isPictograph c && s.head? == some textSelector then 1 + widthFrom 0 false s
      else charWidth c + widthFrom 0 false s

/-- The columns of a text. -/
def displayWidth (s : List Char) : Nat := widthFrom 0 false s

example : displayWidth "日本 e\u0301".toList = 6 := by decide +kernel
example : displayWidth "👩\u200D👧 ❤\uFE0F 👍🏽".toList = 8 := by decide +kernel

end FlashStrings
