import FlashStrings.Proofs.Merge.Entry
import FlashStrings.Proofs.Merge.Lookup

/-!
# Entries after records

`recordsFor identifier rs` are the records that the entry of an identifier is made
of.  A database *counts* some records when it has one entry for each identifier
that has such records and no other, and each entry counts its own; it *unites*
them when each entry unites its own.  A record that is taken keeps both
(`Database.Counts.apply`, `Database.Unites.apply`).
-/

namespace FlashStrings

/-- The records that are merged into the entry of an identifier. -/
def recordsFor (identifier : String) (rs : List Record) : List Record :=
  rs.filter fun r => r.identifier = identifier ∧ r.kind ≠ .autoInit

theorem mem_recordsFor {identifier : String} {rs : List Record} {r : Record} :
    r ∈ recordsFor identifier rs ↔ r ∈ rs ∧ r.identifier = identifier ∧ r.kind ≠ .autoInit := by
  simp [recordsFor]

theorem recordsFor_append (identifier : String) (rs rs' : List Record) :
    recordsFor identifier (rs ++ rs') = recordsFor identifier rs ++ recordsFor identifier rs' :=
  List.filter_append ..

theorem recordsFor_self {r : Record} (h : r.kind ≠ .autoInit) :
    recordsFor r.identifier [r] = [r] := by
  simp [recordsFor, h]

theorem recordsFor_of_ne {identifier : String} {r : Record}
    (h : r.kind = .autoInit ∨ identifier ≠ r.identifier) : recordsFor identifier [r] = [] := by
  rcases h with h | h
  · simp [recordsFor, h]
  · simp [recordsFor, Ne.symm h]

namespace Database

/-- The entries count the records of their identifiers. -/
structure Counts (db : Database) (rs : List Record) : Prop where
  /-- No identifier has two entries. -/
  distinct : (identifiers db.entries).Nodup
  /-- Exactly the identifiers with records have an entry. -/
  lookup : ∀ identifier, db.lookup? identifier = none ↔ recordsFor identifier rs = []
  /-- Each entry counts its own. -/
  counts : ∀ identifier e, db.lookup? identifier = some e → e.Counts (recordsFor identifier rs)

/-- The entries unite the records of their identifiers. -/
def Unites (db : Database) (rs : List Record) : Prop :=
  ∀ identifier e, db.lookup? identifier = some e → e.Unites (recordsFor identifier rs)

variable {db db' : Database} {r : Record} {rs : List Record}

/-! ## One record -/

theorem apply_of_autoInit (h : r.kind = .autoInit) (ha : db.apply r = .ok db') :
    db'.entries = db.entries := by
  rw [apply, h] at ha
  obtain ⟨members, -, rfl⟩ := map_eq_ok ha
  rfl

theorem apply_eq_upsert (h : r.kind ≠ .autoInit) :
    db.apply r = db.upsert r.identifier r.candidate := by
  rw [apply]
  cases hk : r.kind with
  | definition => rfl
  | reference => rfl
  | autoInit => exact absurd hk h

/-- A record that is not for the list of members and is taken is merged into the
entries. -/
theorem mergeOrAppend_of_apply (h : r.kind ≠ .autoInit) (ha : db.apply r = .ok db') :
    mergeOrAppend Entry.merge r.identifier r.candidate db.entries = .ok db'.entries := by
  rw [apply_eq_upsert h, upsert] at ha
  obtain ⟨entries, hm, rfl⟩ := map_eq_ok ha
  exact hm

/-- A record changes the entry of its identifier alone. -/
theorem lookup?_of_apply (h : r.kind ≠ .autoInit) (ha : db.apply r = .ok db') :
    ∃ e', (match db.lookup? r.identifier with
        | none => e' = .create r.identifier r.candidate
        | some e => e.merge r.candidate = .ok e') ∧
      ∀ identifier, db'.lookup? identifier =
        if identifier = r.identifier then some e' else db.lookup? identifier :=
  entryOf?_of_mergeOrAppend (Entry.identifier_create ..) (fun _ _ => Entry.identifier_of_merge)
    (mergeOrAppend_of_apply h ha)

/-- The entry of its identifier rejects a record. -/
theorem merge_of_apply_eq_error (h : r.kind ≠ .autoInit) {new : List Conflict}
    (ha : db.apply r = .error new) :
    ∃ e, db.lookup? r.identifier = some e ∧ e.merge r.candidate = .error new := by
  rw [apply_eq_upsert h, upsert] at ha
  exact mergeOrAppend_eq_error (map_eq_error ha)

/-- The record makes the entry of its identifier, or is merged into it. -/
theorem lookup?_apply_self (h : r.kind ≠ .autoInit) (ha : db.apply r = .ok db') :
    ∃ e', db'.lookup? r.identifier = some e' ∧
      ((db.lookup? r.identifier = none ∧ e' = .create r.identifier r.candidate) ∨
        ∃ e, db.lookup? r.identifier = some e ∧ e.merge r.candidate = .ok e') := by
  obtain ⟨e', hself, hlookup⟩ := lookup?_of_apply h ha
  refine ⟨e', by rw [hlookup, if_pos rfl], ?_⟩
  cases he : db.lookup? r.identifier with
  | none =>
    rw [he] at hself
    exact .inl ⟨rfl, hself⟩
  | some e =>
    rw [he] at hself
    exact .inr ⟨e, rfl, hself⟩

theorem lookup?_apply_of_ne {identifier : String} (ha : db.apply r = .ok db')
    (h : r.kind = .autoInit ∨ identifier ≠ r.identifier) :
    db'.lookup? identifier = db.lookup? identifier := by
  by_cases hk : r.kind = .autoInit
  · rw [lookup?, lookup?, apply_of_autoInit hk ha]
  · obtain ⟨e', -, hlookup⟩ := lookup?_of_apply hk ha
    rw [hlookup, if_neg (h.resolve_left hk)]

/-! ## Counting and uniting -/

theorem counts_empty (fingerprint : String) : Counts { fingerprint } [] where
  distinct := .nil
  lookup _ := ⟨fun _ => rfl, fun _ => rfl⟩
  counts _ _ h := by cases h

theorem unites_empty : Unites {} [] := by
  intro identifier e h
  cases h

theorem nodup_identifiers_of_apply (h : (identifiers db.entries).Nodup)
    (ha : db.apply r = .ok db') : (identifiers db'.entries).Nodup := by
  by_cases hk : r.kind = .autoInit
  · rwa [apply_of_autoInit hk ha]
  · exact nodup_identifiers_of_mergeOrAppend (Entry.identifier_create ..)
      (fun _ _ => Entry.identifier_of_merge) (mergeOrAppend_of_apply hk ha) h

theorem Counts.apply (h : db.Counts rs) (ha : db.apply r = .ok db') : db'.Counts (rs ++ [r]) := by
  refine ⟨nodup_identifiers_of_apply h.distinct ha, ?_, ?_⟩
  · intro identifier
    rw [recordsFor_append]
    by_cases hother : r.kind = .autoInit ∨ identifier ≠ r.identifier
    · rw [lookup?_apply_of_ne ha hother, recordsFor_of_ne hother, List.append_nil]
      exact h.lookup identifier
    · simp only [not_or, Decidable.not_not] at hother
      obtain ⟨hk, rfl⟩ := hother
      obtain ⟨e', he', -⟩ := lookup?_apply_self hk ha
      simp [he', recordsFor_self hk]
  · intro identifier e' he'
    rw [recordsFor_append]
    by_cases hother : r.kind = .autoInit ∨ identifier ≠ r.identifier
    · rw [lookup?_apply_of_ne ha hother] at he'
      rw [recordsFor_of_ne hother, List.append_nil]
      exact h.counts identifier e' he'
    · simp only [not_or, Decidable.not_not] at hother
      obtain ⟨hk, rfl⟩ := hother
      rw [recordsFor_self hk]
      obtain ⟨e'', hself, hmade⟩ := lookup?_apply_self hk ha
      obtain rfl := Option.some.inj (he'.symm.trans hself)
      rcases hmade with ⟨hnone, rfl⟩ | ⟨e, he, hm⟩
      · rw [(h.lookup _).1 hnone]
        exact Entry.counts_create hk
      · exact (h.counts _ e he).merge hk hm

/-- A record that is taken agrees with the others and is united with them. -/
theorem Unites.apply (h : db.Unites rs) (hc : db.Counts rs) (hk : r.kind ≠ .autoInit)
    (hhash : ∀ e, db.lookup? r.identifier = some e →
      r.value.contentHash = e.value.contentHash → r.value = e.value)
    (ha : db.apply r = .ok db') :
    db'.Unites (rs ++ [r]) ∧ ∀ r' ∈ recordsFor r.identifier rs, r'.Agrees r := by
  obtain ⟨e', hself, hmade⟩ := lookup?_apply_self hk ha
  have hstep : e'.Unites (recordsFor r.identifier rs ++ [r]) ∧
      ∀ r' ∈ recordsFor r.identifier rs, r'.Agrees r := by
    rcases hmade with ⟨hnone, rfl⟩ | ⟨e, he, hm⟩
    · rw [(hc.lookup _).1 hnone]
      exact ⟨Entry.unites_create r, by simp⟩
    · exact (h _ e he).merge (hhash e he) hm
  refine ⟨?_, hstep.2⟩
  intro identifier e he
  rw [recordsFor_append]
  by_cases hother : identifier = r.identifier
  · subst hother
    obtain rfl := Option.some.inj (he.symm.trans hself)
    rw [recordsFor_self hk]
    exact hstep.1
  · rw [lookup?_apply_of_ne ha (.inr hother)] at he
    rw [recordsFor_of_ne (.inr hother), List.append_nil]
    exact h identifier e he

/-- A record that is rejected does not agree with all others of its identifier. -/
theorem Unites.not_agrees (h : db.Unites rs) (hk : r.kind ≠ .autoInit) {new : List Conflict}
    (ha : db.apply r = .error new) : ∃ r' ∈ recordsFor r.identifier rs, ¬r'.Agrees r := by
  obtain ⟨e, he, hm⟩ := merge_of_apply_eq_error hk ha
  exact (h _ e he).not_agrees hm

end Database

end FlashStrings
