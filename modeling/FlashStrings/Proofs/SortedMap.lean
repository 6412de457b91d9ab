import FlashStrings.SortedMap

/-!
# Sorted maps as functions

A sorted map holds a value for a key just when the pair is among its entries
(`SortedMap.get?_eq_some_iff`).  So maps that hold the same for every key are
equal (`SortedMap.ext_get?`), and a map is made again from its entries
(`SortedMap.ofList_entries`).
-/

namespace FlashStrings

namespace SortedMap

variable {κ α β : Type} [LT κ]

theorem isEmpty_iff {m : SortedMap κ α} : m.isEmpty = true ↔ m = ∅ := by
  obtain ⟨entries, sorted⟩ := m
  cases entries with
  | nil => exact ⟨fun _ => rfl, fun _ => rfl⟩
  | cons e l => exact ⟨fun h => by simp [isEmpty] at h, fun h => by cases h⟩

variable [DecidableEq κ]

/-! ## Looking up -/

omit [LT κ] in
theorem mem_of_find?_eq_some {key : κ} {value : α} {l : List (κ × α)}
    (h : find? key l = some value) : (key, value) ∈ l := by
  induction l with
  | nil => simp [find?] at h
  | cons hd tl ih =>
    obtain ⟨k, v⟩ := hd
    rw [find?] at h
    split at h
    · next heq =>
      subst heq
      obtain rfl := Option.some.inj h
      exact List.mem_cons_self
    · exact List.mem_cons_of_mem _ (ih h)

theorem find?_eq_some_of_mem [Std.Irrefl (α := κ) (· < ·)] {key : κ} {value : α}
    {l : List (κ × α)} (hs : l.Pairwise fun a b => a.1 < b.1) (h : (key, value) ∈ l) :
    find? key l = some value := by
  induction l with
  | nil => cases h
  | cons hd tl ih =>
    obtain ⟨k, v⟩ := hd
    rw [List.pairwise_cons] at hs
    rw [find?]
    rcases List.mem_cons.1 h with h | h
    · obtain ⟨rfl, rfl⟩ := Prod.mk.inj h
      rw [if_pos rfl]
    · have hne : ¬k = key := by
        intro heq
        exact Std.Irrefl.irrefl key (heq ▸ hs.1 _ h)
      rw [if_neg hne]
      exact ih hs.2 h

/-- A map holds a value for a key just when the pair is among its entries. -/
theorem get?_eq_some_iff [Std.Irrefl (α := κ) (· < ·)] {m : SortedMap κ α} {key : κ} {value : α} :
    m.get? key = some value ↔ (key, value) ∈ m.entries :=
  ⟨mem_of_find?_eq_some, find?_eq_some_of_mem m.sorted⟩

omit [LT κ] in
theorem find?_map (f : α → β) (key : κ) (l : List (κ × α)) :
    find? key (l.map fun e => (e.1, f e.2)) = (find? key l).map f := by
  induction l with
  | nil => rfl
  | cons hd tl ih =>
    rw [List.map_cons, find?, find?, ih]
    split <;> rfl

@[simp] theorem get?_map (f : α → β) (m : SortedMap κ α) (key : κ) :
    (m.map f).get? key = (m.get? key).map f :=
  find?_map f key m.entries

/-! ## Equality -/

variable [Std.Irrefl (α := κ) (· < ·)] [KeyOrder κ]

omit [DecidableEq κ] [KeyOrder κ] in
theorem nodup_entries (m : SortedMap κ α) : m.entries.Nodup :=
  m.sorted.imp fun {a b} (h : a.1 < b.1) (he : a = b) => Std.Irrefl.irrefl b.1 (he ▸ h)

omit [DecidableEq κ] in
/-- Maps with the same entries, in whatever order, are equal. -/
theorem ext_mem {m m' : SortedMap κ α} (h : ∀ e, e ∈ m.entries ↔ e ∈ m'.entries) : m = m' := by
  have hperm : m.entries.Perm m'.entries :=
    (List.perm_ext_iff_of_nodup (nodup_entries m) (nodup_entries m')).2 h
  have heq : m.entries = m'.entries := by
    refine hperm.eq_of_pairwise ?_ m.sorted m'.sorted
    intro a b _ _ (hab : a.1 < b.1) (hba : b.1 < a.1)
    exact absurd (KeyOrder.lt_trans hab hba) (Std.Irrefl.irrefl _)
  cases m
  cases m'
  cases heq
  rfl

/-- Maps that hold the same for every key are equal. -/
theorem ext_get? {m m' : SortedMap κ α} (h : ∀ key, m.get? key = m'.get? key) : m = m' := by
  refine ext_mem fun (key, value) => ?_
  rw [← get?_eq_some_iff, ← get?_eq_some_iff, h]

/-! ## Building -/

variable [DecidableLT κ]

omit [DecidableEq κ] in
theorem place_append_of_forall_lt [DecidableEq κ] {key : κ} {value : α} {l : List (κ × α)}
    (h : ∀ e ∈ l, e.1 < key) : place key value l = l ++ [(key, value)] := by
  induction l with
  | nil => rfl
  | cons hd tl ih =>
    obtain ⟨k, v⟩ := hd
    have hk : k < key := h (k, v) List.mem_cons_self
    have hlt : ¬key < k := fun hlt => Std.Irrefl.irrefl _ (KeyOrder.lt_trans hk hlt)
    have hne : ¬key = k := fun heq => Std.Irrefl.irrefl _ (heq ▸ hk)
    rw [place, if_neg hlt, if_neg hne, ih fun e he => h e (List.mem_cons_of_mem _ he)]
    rfl

theorem entries_foldl_insert (m : SortedMap κ α) (l : List (κ × α))
    (h : (m.entries ++ l).Pairwise fun a b => a.1 < b.1) :
    (l.foldl (fun m e => m.insert e.1 e.2) m).entries = m.entries ++ l := by
  induction l generalizing m with
  | nil => simp
  | cons e l ih =>
    have hlt : ∀ x ∈ m.entries, x.1 < e.1 := by
      intro x hx
      exact (List.pairwise_append.1 h).2.2 x hx e List.mem_cons_self
    have hins : (m.insert e.1 e.2).entries = m.entries ++ [e] :=
      place_append_of_forall_lt hlt
    rw [List.foldl_cons, ih _ (by rw [hins]; simpa using h), hins, List.append_assoc]
    rfl

/-- A map is made again from its entries. -/
@[simp] theorem ofList_entries (m : SortedMap κ α) : ofList m.entries = m := by
  have h := entries_foldl_insert (empty : SortedMap κ α) m.entries m.sorted
  refine ext_mem fun e => ?_
  rw [ofList, h]
  rfl

/-! ## Keys -/

theorem mem_keys_iff {m : TextMap α} {key : String} :
    key ∈ m.keys ↔ ∃ value, m.get? key = some value := by
  simp only [keys, List.mem_map, get?_eq_some_iff]
  exact ⟨fun ⟨(_, value), h, heq⟩ => ⟨value, heq ▸ h⟩, fun ⟨value, h⟩ => ⟨(key, value), h, rfl⟩⟩

theorem mem_keys_foldl_insert {m : TextMap α} {l : List (String × α)} {key : String}
    (h : key ∈ m.keys ∨ key ∈ l.map (·.1)) :
    key ∈ (l.foldl (fun m e => m.insert e.1 e.2) m).keys := by
  induction l generalizing m with
  | nil => simpa using h
  | cons e l ih =>
    refine ih ?_
    simp only [mem_keys_iff, get?_insert, List.map_cons, List.mem_cons] at h ⊢
    by_cases he : key = e.1
    · exact .inl ⟨e.2, if_pos he⟩
    · simpa [he] using h

theorem mem_keys_ofList {l : List (String × α)} {key : String} (h : key ∈ l.map (·.1)) :
    key ∈ (ofList l).keys := mem_keys_foldl_insert (.inr h)

end SortedMap

end FlashStrings
