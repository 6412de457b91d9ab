import FlashStrings.Merge
import FlashStrings.Proofs.SortedMap

/-!
# Texts by key

A value holds at most one text under each key, the fallback being one key and
every locale code another (`Value.at?`).  Values that hold the same under every
key are equal (`Value.ext_at?`).  Adopting a candidate gives an entry its texts
under the keys that are free and leaves all else (`Entry.at?_value_adopt`), and
the conflicts are the keys where both hold different texts
(`Entry.conflicts_eq_nil_iff`).
-/

namespace FlashStrings

/-! ## Values -/

namespace Value

/-- What a value holds under a key. -/
def at? (v : Value) : Option String → Option String
  | none => v.fallback
  | some code => v.locales.get? code

/-- Values that hold the same under every key are equal. -/
theorem ext_at? {v w : Value} (h : ∀ key, v.at? key = w.at? key) : v = w := by
  obtain ⟨fallback, locales⟩ := v
  obtain ⟨fallback', locales'⟩ := w
  obtain rfl : fallback = fallback' := h none
  obtain rfl : locales = locales' := SortedMap.ext_get? fun code => h (some code)
  rfl

theorem lookup_map_some (code : String) (l : List (String × String)) :
    (l.map fun (c, text) => (some c, text)).lookup (some code) = SortedMap.find? code l := by
  induction l with
  | nil => rfl
  | cons e l ih =>
    obtain ⟨c, text⟩ := e
    by_cases h : c = code
    · subst h
      simp [SortedMap.find?]
    · have hbeq : (code == c) = false := beq_eq_false_iff_ne.2 (Ne.symm h)
      simp [SortedMap.find?, List.lookup_cons, h, hbeq, ih]

theorem lookup_none_map_some (l : List (String × String)) :
    (l.map fun (c, text) => (some c, text)).lookup (none : Option String) = none := by
  induction l with
  | nil => rfl
  | cons e l ih => simpa [List.lookup_cons] using ih

/-- The texts are listed by their keys. -/
theorem lookup_texts (v : Value) (key : Option String) : v.texts.lookup key = v.at? key := by
  rw [texts, List.lookup_append]
  cases key with
  | none =>
    rw [lookup_none_map_some]
    cases hf : v.fallback <;> simp [at?, hf]
  | some code =>
    rw [lookup_map_some]
    cases hf : v.fallback <;> simp [at?, SortedMap.get?, List.lookup_cons]

theorem mem_texts_iff {v : Value} {key : Option String} {text : String} :
    (key, text) ∈ v.texts ↔ v.at? key = some text := by
  rw [texts, List.mem_append]
  cases key with
  | none => cases hf : v.fallback <;> simp [at?, hf, eq_comm]
  | some code => simp [at?, SortedMap.get?_eq_some_iff]

theorem at?_eq_none_of_isEmpty {v : Value} (h : v.isEmpty = true) (key : Option String) :
    v.at? key = none := by
  simp only [isEmpty, Bool.and_eq_true, Option.isNone_iff_eq_none] at h
  cases key with
  | none => exact h.1
  | some code => rw [at?, SortedMap.isEmpty_iff.1 h.2]; rfl

/-- Every text of the first value is there in the second one, under the same key. -/
def Below (v w : Value) : Prop := ∀ key text, v.at? key = some text → w.at? key = some text

theorem Below.refl (v : Value) : v.Below v := fun _ _ => id

theorem Below.trans {u v w : Value} (h : u.Below v) (h' : v.Below w) : u.Below w :=
  fun key text ht => h' key text (h key text ht)

end Value

/-! ## Entries -/

namespace Entry

variable {e : Entry} {c : Candidate}

theorem at?_value (e : Entry) (key : Option String) :
    e.value.at? key = (e.at? key).map (·.text) := by
  cases key with
  | none => rfl
  | some code => exact SortedMap.get?_map ..

theorem at?_offer (e : Entry) (key k : Option String) (t : SitedText) :
    (e.offer key t).at? k = if k = key then (e.at? k).or (some t) else e.at? k := by
  unfold offer
  split
  · next h =>
    obtain ⟨x, hx⟩ := Option.isSome_iff_exists.1 h
    split
    · next heq => rw [heq, hx]; rfl
    · rfl
  · next h =>
    have hnone : e.at? key = none := by simpa using h
    cases key with
    | none =>
      cases k with
      | none => rw [if_pos rfl, hnone]; rfl
      | some code => rw [if_neg (by simp)]; rfl
    | some code =>
      cases k with
      | none => rw [if_neg (by simp)]; rfl
      | some code' =>
        by_cases heq : code' = code
        · subst heq
          simp only [at?] at hnone
          simp [at?, hnone]
        · simp [at?, heq]

theorem at?_foldl_offer (e : Entry) (location : Location) (l : List (Option String × String))
    (k : Option String) :
    (l.foldl (fun e (key, text) => e.offer key ⟨text, location⟩) e).at? k =
      (e.at? k).or ((l.lookup k).map (⟨·, location⟩)) := by
  induction l generalizing e with
  | nil => simp
  | cons x l ih =>
    obtain ⟨key, text⟩ := x
    rw [List.foldl_cons, ih, at?_offer, List.lookup_cons]
    by_cases h : k = key
    · subst h
      simp
    · have hbeq : (k == key) = false := beq_eq_false_iff_ne.2 h
      simp [h, hbeq]

/-- Adopting gives the texts of the candidate under the keys that are free, each
with the place of the candidate. -/
theorem at?_adopt (e : Entry) (c : Candidate) (key : Option String) :
    (e.adopt c).at? key = (e.at? key).or ((c.value.at? key).map (⟨·, c.location⟩)) := by
  rw [adopt, at?_foldl_offer, Value.lookup_texts]

theorem at?_value_adopt (e : Entry) (c : Candidate) (key : Option String) :
    (e.adopt c).value.at? key = (e.value.at? key).or (c.value.at? key) := by
  rw [at?_value, at?_adopt, at?_value]
  cases e.at? key <;> cases c.value.at? key <;> rfl

theorem offer_eq (e : Entry) (key : Option String) (t : SitedText) :
    ∃ fallback locales, e.offer key t = { e with fallback, locales } := by
  unfold offer
  split
  · exact ⟨e.fallback, e.locales, rfl⟩
  · cases key with
    | none => exact ⟨some t, e.locales, rfl⟩
    | some code => exact ⟨e.fallback, e.locales.insert code t, rfl⟩

/-- Adopting changes nothing but the texts. -/
theorem adopt_eq (e : Entry) (c : Candidate) :
    ∃ fallback locales, e.adopt c = { e with fallback, locales } := by
  rw [adopt]
  generalize c.value.texts = l
  induction l generalizing e with
  | nil => exact ⟨e.fallback, e.locales, rfl⟩
  | cons x l ih =>
    obtain ⟨key, text⟩ := x
    obtain ⟨fallback, locales, h⟩ := e.offer_eq key ⟨text, c.location⟩
    obtain ⟨fallback', locales', h'⟩ := ih (e.offer key ⟨text, c.location⟩)
    refine ⟨fallback', locales', ?_⟩
    rw [List.foldl_cons, h', h]

/-- There is no conflict just when no key has two different texts. -/
theorem conflicts_eq_nil_iff : e.conflicts c = [] ↔
    ∀ key text text', e.value.at? key = some text → c.value.at? key = some text' →
      text = text' := by
  rw [conflicts, List.filterMap_eq_nil_iff]
  constructor
  · intro h key text text' he hc
    rw [at?_value] at he
    obtain ⟨x, hx, rfl⟩ := Option.map_eq_some_iff.1 he
    have hnone := h (key, text') (Value.mem_texts_iff.2 hc)
    simp only [hx, Option.bind_eq_bind, Option.bind_some] at hnone
    split at hnone
    · assumption
    · cases hnone
  · rintro h ⟨key, text'⟩ hmem
    cases hx : e.at? key with
    | none => simp [hx]
    | some x =>
      have hsame := h key x.text text' (by rw [at?_value, hx]; rfl) (Value.mem_texts_iff.1 hmem)
      simp [hx, hsame]

end Entry

end FlashStrings
