import FlashStrings.ByteScan.Ends
import FlashStrings.Invocation.Error

/-!
# Splitting by byte offsets

The splitting of `Invocation/Split`, as one pass over the text with the byte offsets of its
characters.  A literal is stepped over with the same pass, and the parts are taken between
offsets.  The depth of parentheses is a number of 32 bits.  There is no answer where the
depth does not fit its width, or where a part does not begin and end with characters.

Both forms split alike as long as the parentheses are fewer than 2^31
(`Proofs/ByteScan/Split`).
-/

namespace FlashStrings

namespace ByteScan

/-- The sum of two numbers of 32 bits, if it fits. -/
def addDepth? (m n : Int32) : Option Int32 :=
  if (m + n).toInt = m.toInt + n.toInt then some (m + n) else none

/-- Step over a literal behind its opening quote `q`, from an offset on: the offset and the
text behind the closing quote.  A backslash takes the next character along. -/
def skipQuoted (q : Char) (i : Nat) : List Char → Except ArgumentError (Nat × List Char)
  | [] => .error .unterminatedString
  | ['\\'] => .error .unterminatedString
  | '\\' :: c :: s => skipQuoted q (i + 1 + c.utf8Size) s
  | c :: s =>
    if c = '\n' then .error .unterminatedString
    else if c = q then .ok (i + c.utf8Size, s)
    else skipQuoted q (i + c.utf8Size) s

theorem length_skipQuoted {q : Char} {i j : Nat} {s rest : List Char}
    (h : skipQuoted q i s = .ok (j, rest)) : rest.length < s.length := by
  fun_induction skipQuoted q i s with
  | case1 => cases h
  | case2 => cases h
  | case3 i c s ih =>
    have hlt := ih h
    simp only [List.length_cons]
    omega
  | case4 => cases h
  | case5 i s =>
    obtain ⟨rfl, rfl⟩ := Prod.mk.inj (Except.ok.inj h)
    exact Nat.lt_succ_self s.length
  | case6 i c s _ _ _ _ ih => exact Nat.lt_succ_of_lt (ih h)

/-- Split the text from an offset on.  What stands behind `start` belongs to the part that
has begun, and `args` are the parts before it. -/
def splitFrom? (text : List Char) (depth : Int32) (start i : Nat) (args : List (List Char))
    (s : List Char) : Option (Except ArgumentError (List (List Char))) :=
  match s with
  | [] =>
    if depth ≠ 0 then some (.error .unbalancedParentheses)
    else do return .ok (args ++ [← slice? text start (byteSize text)])
  | c :: s =>
    if c = '"' ∨ c = '\'' then
      match h : skipQuoted c (i + c.utf8Size) s with
      | .error e => some (.error e)
      | .ok (j, rest) =>
        have := length_skipQuoted h
        splitFrom? text depth start j args rest
    else if c = '(' then do
      splitFrom? text (← addDepth? depth 1) start (i + c.utf8Size) args s
    else if c = ')' then do
      let depth ← addDepth? depth (-1)
      if depth < 0 then return .error .unbalancedParentheses
      else splitFrom? text depth start (i + c.utf8Size) args s
    else if c = ',' ∧ depth = 0 then do
      splitFrom? text depth (i + 1) (i + c.utf8Size) (args ++ [← slice? text start i]) s
    else splitFrom? text depth start (i + c.utf8Size) args s
termination_by s.length
decreasing_by all_goals simp only [List.length_cons]; omega

end ByteScan

/-- The arguments in the text between the parentheses of an invocation. -/
def byteSplit (text : String) : Option (Except ArgumentError (List String)) :=
  (ByteScan.splitFrom? text.toList 0 0 0 [] text.toList).map (·.map (·.map String.ofList))

end FlashStrings
