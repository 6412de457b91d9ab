import FlashStrings.Literal.Escape

/-!
# Adjacent literals

Adjacent literals are one text.  Their contents are put behind each other,
except where an open escape sequence at the end of the first would take a digit
from the second: there the two stay separate literals, with a closing and an
opening quote in between.
-/

namespace FlashStrings

/-- The closing and the opening quote between two literals. -/
def literalBreak : List Char := "\" \"".toList

/-- The content of a literal behind the content of the literals before it. -/
def appendSegment (content segment : List Char) : List Char :=
  match segment with
  | [] => content
  | c :: _ =>
    if (Escape.after content).absorbs c then content ++ literalBreak ++ segment
    else content ++ segment

/-- The content of a sequence of adjacent literals. -/
def concatSegments (segments : List (List Char)) : List Char :=
  segments.foldl appendSegment []

example : concatSegments ["\\x4".toList, [], "1".toList] = "\\x4\" \"1".toList := by decide
example : concatSegments ["\\1".toList, "8".toList] = "\\18".toList := by decide

end FlashStrings
