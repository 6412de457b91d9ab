import FlashStrings.Proofs.Text.Utf8

/-!
# Texts between marks

A text that ends where a mark stands is determined by the whole: when the mark
does not occur in two texts, and what follows each begins with the mark or is
empty, then equal wholes have equal parts (`append_inj_of_marked`).
-/

namespace FlashStrings

variable {α : Type}

/-- A list is empty or begins with the mark. -/
def Marked (mark : α) (s : List α) : Prop := ∀ a, s.head? = some a → a = mark

theorem marked_nil (mark : α) : Marked mark [] := by
  intro a h
  cases h

theorem marked_cons (mark : α) (s : List α) : Marked mark (mark :: s) := by
  intro a h
  exact (Option.some.inj h).symm

theorem append_inj_of_marked {mark : α} {s s' t t' : List α} (hs : mark ∉ s) (hs' : mark ∉ s')
    (ht : Marked mark t) (ht' : Marked mark t') (h : s ++ t = s' ++ t') : s = s' ∧ t = t' := by
  induction s generalizing s' with
  | nil =>
    cases s' with
    | nil => exact ⟨rfl, h⟩
    | cons a s' =>
      have ha : a = mark := ht a (by rw [show t = a :: (s' ++ t') from h]; rfl)
      exact absurd (ha ▸ List.mem_cons_self) hs'
  | cons a s ih =>
    cases s' with
    | nil =>
      have ha : a = mark := ht' a (by rw [show t' = a :: (s ++ t) from h.symm]; rfl)
      exact absurd (ha ▸ List.mem_cons_self) hs
    | cons b s' =>
      obtain ⟨rfl, htail⟩ := List.cons.inj h
      obtain ⟨rfl, rfl⟩ := ih (fun hm => hs (List.mem_cons_of_mem _ hm))
        (fun hm => hs' (List.mem_cons_of_mem _ hm)) htail
      exact ⟨rfl, rfl⟩

end FlashStrings
