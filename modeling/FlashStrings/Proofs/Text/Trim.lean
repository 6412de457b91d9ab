import FlashStrings.Text.Trim
import Mathlib.Data.List.DropRight
import Mathlib.Data.List.TakeWhile

/-!
# Members of trimmed and cut lists

Trimming takes members away at both ends only, so a member that is not trimmed
stays (`mem_trimWhile`), and trimming again changes nothing
(`trimWhile_trimWhile`).  Cutting at a separator, every other member stands in
one of the parts (`mem_joinWith_singleton` with `joinWith_cutAt`), and no part
holds the separator (`notMem_of_mem_cutAt`).  Parts without it are found again
when the list that they make together is cut (`cutAt_intercalate`).
-/

namespace FlashStrings

variable {α : Type} {p : α → Bool} {s : List α} {a : α}

theorem takeWhile_append_cons (hs : ∀ b ∈ s, p b = true) (ha : p a = false) (t : List α) :
    (s ++ a :: t).takeWhile p = s := by
  rw [List.takeWhile_append_of_pos hs, List.takeWhile_cons_of_neg (by simp [ha]), List.append_nil]

theorem bne_of_notMem {mark : Char} {s : List Char} (h : mark ∉ s) :
    ∀ c ∈ s, (c != mark) = true := by
  intro c hc
  rw [bne_iff_ne]
  rintro rfl
  exact h hc

/-- The elements at the start that satisfy `p`, and what is behind them. -/
theorem exists_takeWhile (p : α → Bool) (s : List α) :
    ∃ u t, s = u ++ t ∧ (u ++ t).takeWhile p = u ∧ ∀ a ∈ u, p a = true :=
  ⟨s.takeWhile p, s.dropWhile p, List.takeWhile_append_dropWhile.symm,
    by rw [List.takeWhile_append_dropWhile], fun _ => List.mem_takeWhile_imp⟩

/-- No element behind those at the start satisfies `p`, too. -/
theorem head?_of_takeWhile {u t : List α} (h : (u ++ t).takeWhile p = u) (ha : t.head? = some a) :
    p a = false := by
  obtain ⟨t, rfl⟩ := List.head?_eq_some_iff.1 ha
  have hu : ∀ b ∈ u, p b = true := fun b hb => List.mem_takeWhile_imp (h ▸ hb)
  refine eq_false_of_ne_true fun hp => ?_
  rw [List.takeWhile_append_of_pos hu, List.takeWhile_cons_of_pos hp] at h
  simp at h

theorem mem_of_mem_trimWhile (h : a ∈ trimWhile p s) : a ∈ s := by
  rw [trimWhile, dropWhileEnd, List.mem_reverse] at h
  have h1 := (List.dropWhile_sublist p).subset h
  exact (List.dropWhile_sublist p).subset (List.mem_reverse.1 h1)

theorem mem_dropWhile (h : a ∈ s) (ha : p a = false) : a ∈ s.dropWhile p := by
  induction s with
  | nil => cases h
  | cons b s ih =>
    rw [List.dropWhile_cons]
    split
    · next hb =>
      rcases List.mem_cons.1 h with rfl | h
      · exact absurd (ha.symm.trans hb) (by decide)
      · exact ih h
    · exact h

theorem mem_trimWhile (h : a ∈ s) (ha : p a = false) : a ∈ trimWhile p s :=
  List.mem_reverse.2 (mem_dropWhile (List.mem_reverse.2 (mem_dropWhile h ha)) ha)

/-- What is left begins with a member that is not trimmed. -/
theorem head?_trimWhile (h : (trimWhile p s).head? = some a) : p a = false := by
  have hprefix : trimWhile p s <+: s.dropWhile p := List.rdropWhile_prefix p _
  obtain ⟨t, ht⟩ := hprefix
  have hdrop := List.head?_dropWhile_not p s
  rw [← ht, List.head?_append, h] at hdrop
  simpa using hdrop

/-- Nothing more is trimmed of what is left. -/
theorem trimWhile_trimWhile (p : α → Bool) (s : List α) :
    trimWhile p (trimWhile p s) = trimWhile p s := by
  have hfront : (trimWhile p s).dropWhile p = trimWhile p s := by
    cases hs : trimWhile p s with
    | nil => rfl
    | cons a t =>
      have ha : p a = false := head?_trimWhile (by rw [hs]; rfl)
      exact List.dropWhile_cons_of_neg (by simp [ha])
  have hend : dropWhileEnd p (trimWhile p s) = trimWhile p s := List.rdropWhile_idempotent p _
  rw [trimWhile, hfront, hend]

theorem subset_joinWith (sep : List α) {part : List α} {parts : List (List α)}
    (h : part ∈ parts) : part ⊆ joinWith sep parts := by
  fun_induction joinWith sep parts with
  | case1 => cases h
  | case2 only =>
    obtain rfl := List.mem_singleton.1 h
    exact List.Subset.refl part
  | case3 first parts _ ih =>
    rcases List.mem_cons.1 h with rfl | h
    · exact fun a ha => List.mem_append_left _ (List.mem_append_left _ ha)
    · exact fun a ha => List.mem_append_right _ (ih h ha)

/-- What is no separator stands in one of the parts. -/
theorem mem_joinWith_singleton {sep : α} {parts : List (List α)} (h : a ≠ sep) :
    a ∈ joinWith [sep] parts ↔ ∃ part ∈ parts, a ∈ part := by
  fun_induction joinWith [sep] parts with
  | case1 => simp
  | case2 part => simp
  | case3 part parts _ ih => simp [ih, h]

/-! ## Cutting -/

variable [DecidableEq α] {sep : α}

theorem cutAt_append_cons (sep : α) (s t : List α) :
    cutAt sep (s ++ sep :: t) = cutAt sep s ++ cutAt sep t := by
  induction s with
  | nil =>
    obtain ⟨part, parts, h⟩ := List.exists_cons_of_ne_nil (cutAt_ne_nil sep t)
    simp [cutAt, h]
  | cons c s ih =>
    obtain ⟨part, parts, h⟩ := List.exists_cons_of_ne_nil (cutAt_ne_nil sep s)
    rw [List.cons_append, cutAt, ih, cutAt, h, List.cons_append]
    simp only
    split <;> rfl

theorem cutAt_of_notMem (h : sep ∉ s) : cutAt sep s = [s] := by
  induction s with
  | nil => rfl
  | cons c s ih =>
    obtain ⟨hc, hs⟩ := not_or.1 (mt List.mem_cons.2 h)
    rw [cutAt, ih hs]
    exact if_neg (Ne.symm hc)

theorem notMem_of_mem_cutAt {part : List α} (h : part ∈ cutAt sep s) : sep ∉ part := by
  induction s generalizing part with
  | nil =>
    obtain rfl := List.mem_singleton.1 h
    exact List.not_mem_nil
  | cons c s ih =>
    obtain ⟨first, parts, hs⟩ := List.exists_cons_of_ne_nil (cutAt_ne_nil sep s)
    rw [hs] at ih
    rw [cutAt, hs] at h
    simp only at h
    split at h
    · rcases List.mem_cons.1 h with rfl | h
      · exact List.not_mem_nil
      · exact ih h
    · next hc =>
      rcases List.mem_cons.1 h with rfl | h
      · exact fun hmem => (List.mem_cons.1 hmem).elim (fun he => hc he.symm)
          (ih List.mem_cons_self)
      · exact ih (List.mem_cons_of_mem _ h)

/-- Parts without the separator are found again. -/
theorem cutAt_intercalate {parts : List (List α)} (hne : parts ≠ [])
    (h : ∀ part ∈ parts, sep ∉ part) : cutAt sep ([sep].intercalate parts) = parts := by
  induction parts with
  | nil => exact absurd rfl hne
  | cons part parts ih =>
    have hpart := cutAt_of_notMem (h part List.mem_cons_self)
    cases parts with
    | nil => rwa [List.intercalate_singleton]
    | cons next parts =>
      rw [List.intercalate_cons_cons, List.append_assoc, List.singleton_append, cutAt_append_cons,
        hpart, ih (List.cons_ne_nil _ _) fun p hp => h p (List.mem_cons_of_mem _ hp)]
      rfl

end FlashStrings
