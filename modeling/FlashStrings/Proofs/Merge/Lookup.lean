import FlashStrings.Database
import FlashStrings.Proofs.Except

/-!
# Entries by identifier

`entryOf? identifier es` is the entry that records of an identifier are merged
into.  `mergeOrAppend` changes this entry, or appends one when there is none, and
leaves the entries of all other identifiers (`entryOf?_of_mergeOrAppend`).  So
identifiers stay distinct (`nodup_identifiers_of_mergeOrAppend`), and every entry
is the one of its identifier (`entryOf?_eq_some_iff_mem`).
-/

namespace FlashStrings

/-- The entry of an identifier in a list. -/
def entryOf? (identifier : String) (es : List Entry) : Option Entry :=
  (position? identifier es).bind (es[·]?)

/-- The identifiers of the entries. -/
def identifiers (es : List Entry) : List String := es.map (·.identifier)

/-! ## Positions -/

theorem position?_cons_of_eq_some {identifier : String} {e : Entry} {es : List Entry} {i : Nat}
    (h : position? identifier es = some i) : position? identifier (e :: es) = some (i + 1) := by
  rw [position?, h]

theorem position?_cons_of_eq_none {identifier : String} {e : Entry} {es : List Entry}
    (h : position? identifier es = none) :
    position? identifier (e :: es) = if e.identifier = identifier then some 0 else none := by
  rw [position?, h]

theorem position?_eq_none_iff {identifier : String} {es : List Entry} :
    position? identifier es = none ↔ identifier ∉ identifiers es := by
  induction es with
  | nil => simp [position?, identifiers]
  | cons e es ih =>
    rw [identifiers, List.map_cons, List.mem_cons, not_or]
    cases h : position? identifier es with
    | some i =>
      rw [position?_cons_of_eq_some h]
      rw [h] at ih
      simpa [identifiers] using fun _ => ih
    | none =>
      rw [position?_cons_of_eq_none h]
      have hes := ih.1 h
      by_cases he : e.identifier = identifier
      · simp [he]
      · simpa [he, Ne.symm he, identifiers] using hes

/-- The entry at the position of an identifier has that identifier. -/
theorem getElem?_position? {identifier : String} {es : List Entry} {i : Nat}
    (h : position? identifier es = some i) : ∃ e, es[i]? = some e ∧ e.identifier = identifier := by
  induction es generalizing i with
  | nil => cases h
  | cons e es ih =>
    cases hes : position? identifier es with
    | some j =>
      rw [position?_cons_of_eq_some hes] at h
      obtain rfl := Option.some.inj h
      exact ih hes
    | none =>
      rw [position?_cons_of_eq_none hes] at h
      split at h
      · next he =>
        obtain rfl := Option.some.inj h
        exact ⟨e, rfl, he⟩
      · cases h

theorem position?_append (identifier : String) (es : List Entry) (e : Entry) :
    position? identifier (es ++ [e]) =
      if e.identifier = identifier then some es.length else position? identifier es := by
  induction es with
  | nil => rfl
  | cons e' es ih =>
    rw [List.cons_append]
    by_cases he : e.identifier = identifier
    · rw [if_pos he] at ih ⊢
      exact position?_cons_of_eq_some ih
    · rw [if_neg he] at ih ⊢
      cases hes : position? identifier es with
      | some i => rw [position?_cons_of_eq_some (ih.trans hes), position?_cons_of_eq_some hes]
      | none => rw [position?_cons_of_eq_none (ih.trans hes), position?_cons_of_eq_none hes]

/-- Positions depend on the identifiers alone. -/
theorem position?_congr {es es' : List Entry} (h : identifiers es = identifiers es')
    (identifier : String) : position? identifier es = position? identifier es' := by
  induction es generalizing es' with
  | nil =>
    cases es' with
    | nil => rfl
    | cons e' es' => cases h
  | cons e es ih =>
    cases es' with
    | nil => cases h
    | cons e' es' =>
      obtain ⟨he, hes⟩ := List.cons.inj h
      have he : e.identifier = e'.identifier := he
      rw [position?, position?, ih hes, he]

theorem identifiers_set {es : List Entry} {i : Nat} {e e' : Entry} (h : es[i]? = some e)
    (he : e'.identifier = e.identifier) : identifiers (es.set i e') = identifiers es := by
  obtain ⟨hi, rfl⟩ := List.getElem?_eq_some_iff.1 h
  rw [identifiers, List.map_set, identifiers]
  refine List.ext_getElem? fun j => ?_
  rw [List.getElem?_set]
  split
  · next hj =>
    subst hj
    simp [hi, he]
  · rfl

/-! ## Entries -/

theorem identifier_of_entryOf? {identifier : String} {es : List Entry} {e : Entry}
    (h : entryOf? identifier es = some e) : e.identifier = identifier := by
  obtain ⟨i, hi, he⟩ := Option.bind_eq_some_iff.1 h
  obtain ⟨e', he', hid⟩ := getElem?_position? hi
  rwa [← Option.some.inj (he'.symm.trans he)]

theorem mem_of_entryOf? {identifier : String} {es : List Entry} {e : Entry}
    (h : entryOf? identifier es = some e) : e ∈ es := by
  obtain ⟨i, -, he⟩ := Option.bind_eq_some_iff.1 h
  exact List.mem_of_getElem? he

theorem entryOf?_eq_none_iff {identifier : String} {es : List Entry} :
    entryOf? identifier es = none ↔ identifier ∉ identifiers es := by
  rw [← position?_eq_none_iff, entryOf?]
  cases h : position? identifier es with
  | none => simp
  | some i =>
    obtain ⟨e, he, -⟩ := getElem?_position? h
    simp [he]

/-- When identifiers are distinct, every entry is the one of its identifier. -/
theorem entryOf?_eq_some_iff_mem {es : List Entry} (h : (identifiers es).Nodup) {e : Entry} :
    entryOf? e.identifier es = some e ↔ e ∈ es := by
  refine ⟨mem_of_entryOf?, fun he => ?_⟩
  obtain ⟨j, hj, rfl⟩ := List.getElem_of_mem he
  cases hp : position? es[j].identifier es with
  | none => exact absurd (List.mem_map.2 ⟨_, he, rfl⟩) (position?_eq_none_iff.1 hp)
  | some i =>
    obtain ⟨e', he', hid⟩ := getElem?_position? hp
    obtain ⟨hi, rfl⟩ := List.getElem?_eq_some_iff.1 he'
    have hi' : i < (identifiers es).length := by rwa [identifiers, List.length_map]
    have hj' : j < (identifiers es).length := by rwa [identifiers, List.length_map]
    have hsame : (identifiers es)[i] = (identifiers es)[j] := by simpa [identifiers] using hid
    obtain rfl : i = j := (List.getElem_inj h).1 hsame
    rw [entryOf?, hp]
    exact he'

theorem entryOf?_append (identifier : String) (es : List Entry) (e : Entry) :
    entryOf? identifier (es ++ [e]) =
      if e.identifier = identifier then some e else entryOf? identifier es := by
  rw [entryOf?, position?_append]
  split
  · simp
  · cases hp : position? identifier es with
    | none => simp [entryOf?, hp]
    | some i =>
      obtain ⟨e', he', -⟩ := getElem?_position? hp
      obtain ⟨hi, rfl⟩ := List.getElem?_eq_some_iff.1 he'
      simp [entryOf?, hp, List.getElem?_append_left hi]

theorem entryOf?_set {es : List Entry} {i : Nat} {e e' : Entry} {identifier : String}
    (hp : position? identifier es = some i) (h : es[i]? = some e)
    (he : e'.identifier = e.identifier) (other : String) :
    entryOf? other (es.set i e') = if other = identifier then some e' else entryOf? other es := by
  obtain ⟨_, h', hid⟩ := getElem?_position? hp
  obtain rfl := Option.some.inj (h'.symm.trans h)
  rw [entryOf?, position?_congr (identifiers_set h he)]
  split
  · next heq =>
    subst heq
    have hi := (List.getElem?_eq_some_iff.1 h).1
    simp [hp, hi]
  · next hne =>
    cases hq : position? other es with
    | none => simp [entryOf?, hq]
    | some j =>
      obtain ⟨e₂, h₂, hid₂⟩ := getElem?_position? hq
      have hij : i ≠ j := by
        rintro rfl
        obtain rfl := Option.some.inj (h₂.symm.trans h)
        exact hne (hid₂.symm.trans hid)
      simp [entryOf?, hq, List.getElem?_set_ne hij]

/-! ## Merging into a list -/

section

variable {merge : Entry → Candidate → Except (List Conflict) Entry} {identifier : String}
  {c : Candidate} {es es' : List Entry}

theorem mergeOrAppend_of_eq_none (h : entryOf? identifier es = none) :
    mergeOrAppend merge identifier c es = .ok (es ++ [.create identifier c]) := by
  have hp : position? identifier es = none :=
    position?_eq_none_iff.2 (entryOf?_eq_none_iff.1 h)
  rw [mergeOrAppend, hp]
  rfl

theorem mergeOrAppend_of_eq_some (merge : Entry → Candidate → Except (List Conflict) Entry)
    (c : Candidate) {e : Entry} (h : entryOf? identifier es = some e) :
    ∃ i, position? identifier es = some i ∧ es[i]? = some e ∧
      mergeOrAppend merge identifier c es = (merge e c).map (es.set i ·) := by
  obtain ⟨i, hi, he⟩ := Option.bind_eq_some_iff.1 h
  refine ⟨i, hi, he, ?_⟩
  rw [mergeOrAppend, hi, Option.bind_some, he]
  rfl

/-- A candidate is rejected by the entry of its identifier. -/
theorem mergeOrAppend_eq_error {new : List Conflict}
    (h : mergeOrAppend merge identifier c es = .error new) :
    ∃ e, entryOf? identifier es = some e ∧ merge e c = .error new := by
  cases he : entryOf? identifier es with
  | none =>
    rw [mergeOrAppend_of_eq_none he] at h
    cases h
  | some e =>
    obtain ⟨i, -, -, hmerge⟩ := mergeOrAppend_of_eq_some merge c he
    rw [hmerge] at h
    exact ⟨e, rfl, map_eq_error h⟩

/-- What a list is after a candidate was taken. -/
theorem mergeOrAppend_eq_ok (h : mergeOrAppend merge identifier c es = .ok es') :
    (entryOf? identifier es = none ∧ es' = es ++ [.create identifier c]) ∨
      ∃ e e' i, entryOf? identifier es = some e ∧ merge e c = .ok e' ∧
        position? identifier es = some i ∧ es[i]? = some e ∧ es' = es.set i e' := by
  cases he : entryOf? identifier es with
  | none =>
    rw [mergeOrAppend_of_eq_none he] at h
    exact .inl ⟨rfl, (Except.ok.inj h).symm⟩
  | some e =>
    obtain ⟨i, hp, hi, hmerge⟩ := mergeOrAppend_of_eq_some merge c he
    rw [hmerge] at h
    obtain ⟨e', hm, rfl⟩ := map_eq_ok h
    exact .inr ⟨e, e', i, rfl, hm, hp, hi, rfl⟩

/-- Only the entry of the identifier changes. -/
theorem entryOf?_of_mergeOrAppend
    (hcreate : (Entry.create identifier c).identifier = identifier)
    (hmerge : ∀ e e', merge e c = .ok e' → e'.identifier = e.identifier)
    (h : mergeOrAppend merge identifier c es = .ok es') :
    ∃ e', (match entryOf? identifier es with
        | none => e' = .create identifier c
        | some e => merge e c = .ok e') ∧
      ∀ other, entryOf? other es' =
        if other = identifier then some e' else entryOf? other es := by
  rcases mergeOrAppend_eq_ok h with ⟨hnone, rfl⟩ | ⟨e, e', i, he, hm, hp, hi, rfl⟩
  · refine ⟨.create identifier c, by rw [hnone], fun other => ?_⟩
    rw [entryOf?_append, hcreate]
    simp only [eq_comm]
  · refine ⟨e', by rw [he]; exact hm, fun other => ?_⟩
    exact entryOf?_set hp hi (hmerge e e' hm) other

/-- What a new entry and a merged one have, all entries have. -/
theorem forall_of_mergeOrAppend {P : Entry → Prop} (hcreate : P (.create identifier c))
    (hmerge : ∀ e e', P e → merge e c = .ok e' → P e')
    (h : mergeOrAppend merge identifier c es = .ok es') (hes : ∀ e ∈ es, P e) :
    ∀ e ∈ es', P e := by
  rcases mergeOrAppend_eq_ok h with ⟨-, rfl⟩ | ⟨e, e', i, he, hm, -, -, rfl⟩
  · exact List.forall_mem_append.2 ⟨hes, List.forall_mem_singleton.2 hcreate⟩
  · intro x hx
    rcases List.mem_or_eq_of_mem_set hx with hx | rfl
    · exact hes x hx
    · exact hmerge e _ (hes e (mem_of_entryOf? he)) hm

/-- A new identifier is appended to those that are there. -/
theorem identifiers_of_mergeOrAppend
    (hcreate : (Entry.create identifier c).identifier = identifier)
    (hmerge : ∀ e e', merge e c = .ok e' → e'.identifier = e.identifier)
    (h : mergeOrAppend merge identifier c es = .ok es') :
    identifiers es' =
      if identifier ∈ identifiers es then identifiers es else identifiers es ++ [identifier] := by
  rcases mergeOrAppend_eq_ok h with ⟨hnone, rfl⟩ | ⟨e, e', i, he, hm, -, hi, rfl⟩
  · rw [if_neg (entryOf?_eq_none_iff.1 hnone), identifiers, List.map_append, List.map_singleton,
      hcreate, identifiers]
  · have hmem : identifier ∈ identifiers es :=
      List.mem_map.2 ⟨e, mem_of_entryOf? he, identifier_of_entryOf? he⟩
    rw [if_pos hmem, identifiers_set hi (hmerge e e' hm)]

theorem nodup_identifiers_of_mergeOrAppend
    (hcreate : (Entry.create identifier c).identifier = identifier)
    (hmerge : ∀ e e', merge e c = .ok e' → e'.identifier = e.identifier)
    (h : mergeOrAppend merge identifier c es = .ok es') (hes : (identifiers es).Nodup) :
    (identifiers es').Nodup := by
  rw [identifiers_of_mergeOrAppend hcreate hmerge h]
  split
  · exact hes
  · next hnew =>
    rw [List.nodup_append]
    refine ⟨hes, by simp, ?_⟩
    intro a ha b hb heq
    obtain rfl := List.mem_singleton.1 hb
    exact hnew (heq ▸ ha)

end

end FlashStrings
