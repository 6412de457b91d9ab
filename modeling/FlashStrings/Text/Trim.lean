import FlashStrings.Text.Class

/-!
# Trimming and cutting

Texts are lists of characters here.  `trim` removes blanks at both ends,
`cutAt` cuts at every occurrence of a character and `joinWith` puts the pieces
together again (`joinWith_cutAt`).
-/

namespace FlashStrings

variable {α : Type}

/-- Drop the members at the end that satisfy `p`. -/
def dropWhileEnd (p : α → Bool) (s : List α) : List α :=
  (s.reverse.dropWhile p).reverse

/-- Drop the members at both ends that satisfy `p`. -/
def trimWhile (p : α → Bool) (s : List α) : List α :=
  dropWhileEnd p (s.dropWhile p)

theorem length_dropWhile_le (p : α → Bool) (s : List α) :
    (s.dropWhile p).length ≤ s.length :=
  (List.dropWhile_sublist p).length_le

theorem length_trimWhile_le (p : α → Bool) (s : List α) :
    (trimWhile p s).length ≤ s.length := by
  have h1 := length_dropWhile_le p (s.dropWhile p).reverse
  have h2 := length_dropWhile_le p s
  simp only [trimWhile, dropWhileEnd, List.length_reverse] at *
  omega

/-- Remove the blanks at both ends. -/
def trim (s : List Char) : List Char := trimWhile isBlank s

/-- The parts of a text between the occurrences of `sep`; never empty. -/
def cutAt [DecidableEq α] (sep : α) : List α → List (List α)
  | [] => [[]]
  | c :: s =>
    match cutAt sep s with
    | [] => [[c]]
    | part :: parts => if c = sep then [] :: part :: parts else (c :: part) :: parts

/-- The parts with `sep` between them. -/
def joinWith (sep : List α) : List (List α) → List α
  | [] => []
  | [part] => part
  | part :: parts => part ++ sep ++ joinWith sep parts

theorem cutAt_ne_nil [DecidableEq α] (sep : α) (s : List α) : cutAt sep s ≠ [] := by
  cases s with
  | nil => simp [cutAt]
  | cons c s =>
    unfold cutAt
    split
    · simp
    · split <;> simp

/-- Cutting loses nothing but the separators. -/
theorem joinWith_cutAt [DecidableEq α] (sep : α) (s : List α) :
    joinWith [sep] (cutAt sep s) = s := by
  induction s with
  | nil => rfl
  | cons c s ih =>
    match h : cutAt sep s with
    | [] => exact absurd h (cutAt_ne_nil sep s)
    | part :: parts =>
      rw [h] at ih
      by_cases hc : c = sep
      · simp [cutAt, h, hc, joinWith, ih]
      · cases parts <;> simp_all [cutAt, joinWith]

example : cutAt ',' "a,,b".toList = ["a".toList, [], "b".toList] := by decide

end FlashStrings
