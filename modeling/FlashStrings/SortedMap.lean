/-!
# Sorted maps

A `SortedMap` is a finite map whose entries stand in the order of their keys, so
two maps with the same entries are equal and every list made from a map has one
order.  A `TextMap` has texts for keys, ordered by code points.

The laws at the end speak of the view `get?`: what a map holds after `insert`
and after `erase`.
-/

namespace FlashStrings

/-- A strict linear order, as keys need it. -/
class KeyOrder (κ : Type) [LT κ] : Prop where
  lt_trans {a b c : κ} : a < b → b < c → a < c
  /-- Keys of which none is less than the other are equal. -/
  eq_of_not_lt {a b : κ} : ¬a < b → ¬b < a → a = b

instance : KeyOrder String where
  lt_trans := Trans.trans
  eq_of_not_lt := Std.Trichotomous.trichotomous _ _

/-- Lists of texts are compared text by text, a shorter one before its
continuations. -/
instance : KeyOrder (List String) where
  lt_trans := Trans.trans
  eq_of_not_lt := Std.Trichotomous.trichotomous _ _

/-- A finite map, sorted by key. -/
structure SortedMap (κ : Type) [LT κ] (α : Type) where
  /-- The entries, in the order of their keys. -/
  entries : List (κ × α)
  /-- The keys increase strictly. -/
  sorted : entries.Pairwise fun a b => a.1 < b.1
  deriving DecidableEq, Repr

/-- A finite map from texts. -/
abbrev TextMap (α : Type) := SortedMap String α

namespace SortedMap

variable {κ α β : Type} [LT κ]

/-- The map without entries. -/
def empty : SortedMap κ α := ⟨[], .nil⟩

instance : EmptyCollection (SortedMap κ α) := ⟨empty⟩
instance : Inhabited (SortedMap κ α) := ⟨empty⟩

/-- The keys, in order. -/
def keys (m : SortedMap κ α) : List κ := m.entries.map (·.1)

/-- Whether the map has no entries. -/
def isEmpty (m : SortedMap κ α) : Bool := m.entries.isEmpty

/-- The map with every value changed. -/
def map (f : α → β) (m : SortedMap κ α) : SortedMap κ β :=
  ⟨m.entries.map fun e => (e.1, f e.2), List.pairwise_map.2 m.sorted⟩

variable [DecidableEq κ]

/-- The first entry of a key in a list. -/
def find? (key : κ) : List (κ × α) → Option α
  | [] => none
  | (k, v) :: rest => if k = key then some v else find? key rest

/-- What the map holds for a key. -/
def get? (m : SortedMap κ α) (key : κ) : Option α := find? key m.entries

/-- Whether the map holds something for a key. -/
def contains (m : SortedMap κ α) (key : κ) : Bool := (m.get? key).isSome

/-- The map without the entry of a key. -/
def erase (m : SortedMap κ α) (key : κ) : SortedMap κ α :=
  ⟨m.entries.filter (·.1 ≠ key), m.sorted.filter _⟩

/-! ## Insertion -/

variable [DecidableLT κ]

/-- Put an entry at its place in a sorted list; an entry of the same key is
replaced. -/
def place (key : κ) (value : α) : List (κ × α) → List (κ × α)
  | [] => [(key, value)]
  | (k, v) :: rest =>
    if key < k then (key, value) :: (k, v) :: rest
    else if key = k then (key, value) :: rest
    else (k, v) :: place key value rest

theorem mem_place {key : κ} {value : α} {e : κ × α} {l : List (κ × α)}
    (h : e ∈ place key value l) : e = (key, value) ∨ e ∈ l := by
  induction l with
  | nil => simpa [place] using h
  | cons hd tl ih =>
    obtain ⟨k, v⟩ := hd
    unfold place at h
    split at h
    · simpa using h
    · split at h
      · rcases List.mem_cons.1 h with h | h
        · exact .inl h
        · exact .inr (List.mem_cons_of_mem _ h)
      · rcases List.mem_cons.1 h with h | h
        · exact .inr (by simp [h])
        · rcases ih h with h | h
          · exact .inl h
          · exact .inr (List.mem_cons_of_mem _ h)

variable [KeyOrder κ]

omit [DecidableEq κ] in
theorem lt_of_not_lt_of_ne {a b : κ} (h : ¬a < b) (hne : ¬a = b) : b < a :=
  Decidable.by_contra fun hb => hne (KeyOrder.eq_of_not_lt h hb)

theorem pairwise_place {key : κ} {value : α} {l : List (κ × α)}
    (h : l.Pairwise fun a b => a.1 < b.1) :
    (place key value l).Pairwise fun a b => a.1 < b.1 := by
  induction l with
  | nil => simp [place]
  | cons hd tl ih =>
    obtain ⟨k, v⟩ := hd
    rw [List.pairwise_cons] at h
    unfold place
    split
    · next hlt =>
      refine List.pairwise_cons.2 ⟨?_, List.pairwise_cons.2 h⟩
      intro e he
      rcases List.mem_cons.1 he with rfl | he
      · exact hlt
      · exact KeyOrder.lt_trans hlt (h.1 e he)
    · next hlt =>
      split
      · next heq =>
        subst heq
        exact List.pairwise_cons.2 ⟨h.1, h.2⟩
      · next hne =>
        refine List.pairwise_cons.2 ⟨?_, ih h.2⟩
        intro e he
        rcases mem_place he with rfl | he
        · exact lt_of_not_lt_of_ne hlt hne
        · exact h.1 e he

/-- The map with one entry put in, in place of an earlier one of that key. -/
def insert (m : SortedMap κ α) (key : κ) (value : α) : SortedMap κ α :=
  ⟨place key value m.entries, pairwise_place m.sorted⟩

/-- The map that holds the members of a list; of two with one key, the later. -/
def ofList (l : List (κ × α)) : SortedMap κ α :=
  l.foldl (fun m e => m.insert e.1 e.2) empty

/-! ## Laws -/

omit [KeyOrder κ] in
theorem find?_place (key k : κ) (value : α) (l : List (κ × α)) :
    find? k (place key value l) = if k = key then some value else find? k l := by
  induction l with
  | nil => by_cases h : key = k <;> simp [place, find?, h, eq_comm]
  | cons hd tl ih =>
    obtain ⟨k', v⟩ := hd
    unfold place
    split
    · by_cases h : k = key
      · simp [find?, h]
      · simp [find?, h, Ne.symm h]
    · split
      · next h =>
        subst h
        by_cases hk : k = key
        · simp [find?, hk]
        · simp [find?, hk, Ne.symm hk]
      · next hne =>
        rw [find?, ih, find?]
        by_cases h : k = key
        · subst h
          simp [Ne.symm hne]
        · simp [h]

@[simp] theorem get?_insert (m : SortedMap κ α) (key k : κ) (value : α) :
    (m.insert key value).get? k = if k = key then some value else m.get? k :=
  find?_place key k value m.entries

omit [DecidableLT κ] [KeyOrder κ] in
@[simp] theorem get?_empty (k : κ) : (empty : SortedMap κ α).get? k = none := rfl

omit [LT κ] [DecidableLT κ] [KeyOrder κ] in
theorem find?_filter (key k : κ) (l : List (κ × α)) :
    find? k (l.filter (·.1 ≠ key)) = if k = key then none else find? k l := by
  induction l with
  | nil => simp [find?]
  | cons hd tl ih =>
    obtain ⟨k', v⟩ := hd
    by_cases h' : k' = key <;> by_cases h : k = key <;> simp_all [find?]
    exact fun he => absurd he.symm h

omit [DecidableLT κ] [KeyOrder κ] in
@[simp] theorem get?_erase (m : SortedMap κ α) (key k : κ) :
    (m.erase key).get? k = if k = key then none else m.get? k :=
  find?_filter key k m.entries

end SortedMap

example : (SortedMap.ofList [("de", 1), ("bg", 2), ("de", 3)]).entries = [("bg", 2), ("de", 3)] := by
  decide

end FlashStrings
