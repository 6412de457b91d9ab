import FlashStrings.Proofs.Run.Merged
import Mathlib.Data.List.Induction
import Mathlib.Data.List.Nodup

/-!
# The order of entries

`namedBy rs` are the identifiers that the records of definitions and references
name, in the order of their first records.  Records leave one entry for each of
them, in this order, whether they are taken or rejected
(`Database.identifiers_applyAll`, `Project.identifiers_gather`).

The order of an earlier database moves the identifiers that it has to the front
and leaves the others as they stand (`Database.identifiers_orderLike`).
-/

namespace FlashStrings

/-! ## Identifiers that records name -/

/-- The identifiers of the records of definitions and references, in the order of
their first records. -/
def namedBy (rs : List Record) : List String :=
  ((rs.filter (·.kind ≠ .autoInit)).map (·.identifier)).eraseDups

theorem mem_namedBy {identifier : String} {rs : List Record} :
    identifier ∈ namedBy rs ↔ ∃ r ∈ rs, r.kind ≠ .autoInit ∧ r.identifier = identifier := by
  simp [namedBy, and_assoc]

theorem eraseDups_concat (l : List String) (a : String) :
    (l ++ [a]).eraseDups = if a ∈ l then l.eraseDups else l.eraseDups ++ [a] := by
  rw [List.eraseDups_append]
  by_cases ha : a ∈ l <;> simp [List.removeAll, ha, List.eraseDups_cons]

theorem nodup_eraseDups (l : List String) : l.eraseDups.Nodup := by
  induction l using List.reverseRecOn with
  | nil => exact .nil
  | append_singleton l a ih =>
    rw [eraseDups_concat]
    split
    · exact ih
    · next hnew =>
      rw [← List.concat_eq_append]
      exact ih.concat fun ha => hnew (List.mem_eraseDups.1 ha)

/-- The next record adds its identifier if it is new. -/
theorem namedBy_concat (rs : List Record) (r : Record) :
    namedBy (rs ++ [r]) =
      if r.kind = .autoInit ∨ r.identifier ∈ namedBy rs then namedBy rs
      else namedBy rs ++ [r.identifier] := by
  by_cases hk : r.kind = .autoInit
  · simp [namedBy, hk]
  · have hlast : [r].filter (·.kind ≠ .autoInit) = [r] := by simp [hk]
    have hmem : r.identifier ∈ (rs.filter (·.kind ≠ .autoInit)).map (·.identifier) ↔
        r.identifier ∈ namedBy rs := List.mem_eraseDups.symm
    rw [namedBy, List.filter_append, hlast, List.map_append, List.map_singleton,
      eraseDups_concat, ← namedBy]
    simp only [hmem, hk, false_or]

namespace Database

variable {db db' earlier : Database} {r : Record} {taken : List Record}

theorem identifiers_of_apply (h : identifiers db.entries = namedBy taken)
    (ha : db.apply r = .ok db') : identifiers db'.entries = namedBy (taken ++ [r]) := by
  rw [namedBy_concat, ← h]
  by_cases hk : r.kind = .autoInit
  · rw [if_pos (.inl hk), apply_of_autoInit hk ha]
  · simp only [hk, false_or]
    exact identifiers_of_mergeOrAppend (Entry.identifier_create ..)
      (fun _ _ => Entry.identifier_of_merge) (mergeOrAppend_of_apply hk ha)

/-- Only a record whose identifier has an entry is rejected. -/
theorem namedBy_of_apply_eq_error (h : identifiers db.entries = namedBy taken)
    {new : List Conflict} (ha : db.apply r = .error new) :
    namedBy (taken ++ [r]) = namedBy taken := by
  rw [namedBy_concat]
  refine if_pos ?_
  by_cases hk : r.kind = .autoInit
  · exact .inl hk
  · obtain ⟨e, he, -⟩ := merge_of_apply_eq_error hk ha
    rw [← h]
    exact .inr (List.mem_map.2 ⟨e, mem_of_entryOf? he, identifier_of_entryOf? he⟩)

/-- Records leave the entries that they name, also if some of them are rejected. -/
theorem identifiers_applyAll (h : identifiers db.entries = namedBy taken) (rs : List Record) :
    identifiers (db.applyAll rs).1.entries = namedBy (taken ++ rs) := by
  induction rs generalizing db taken with
  | nil => rwa [List.append_nil]
  | cons r rs ih =>
    rw [List.append_cons]
    cases hr : db.apply r with
    | ok db' =>
      rw [applyAll_cons_of_ok hr]
      exact ih (identifiers_of_apply h hr)
    | error new =>
      rw [applyAll_cons_of_error hr]
      exact ih (h.trans (namedBy_of_apply_eq_error h hr).symm)

end Database

namespace Project

/-- A run gathers one entry for each identifier that a record names. -/
theorem identifiers_gather (p : Project) (scans : List (Except Issue FileScan)) :
    identifiers (p.gather scans).1.entries = namedBy (scanRecords scans ++ p.configRecords) := by
  obtain ⟨files, hdb, -⟩ := p.gather_eq scans
  have hempty : identifiers ({ fingerprint := p.fingerprint } : Database).entries = namedBy [] :=
    rfl
  rw [hdb]
  exact Database.identifiers_applyAll hempty _

end Project

/-! ## Places -/

/-- The place of an identifier in a list of entries. -/
def placeIn (es : List Entry) (identifier : String) : Nat := (position? identifier es).getD 0

theorem getElem?_placeIn {es : List Entry} {identifier : String} (h : identifier ∈ identifiers es) :
    (identifiers es)[placeIn es identifier]? = some identifier := by
  cases hp : position? identifier es with
  | none => exact absurd h (position?_eq_none_iff.1 hp)
  | some i =>
    obtain ⟨e, he, hid⟩ := getElem?_position? hp
    rw [placeIn, hp, Option.getD_some, identifiers, List.getElem?_map, he, Option.map_some, hid]

theorem placeIn_getElem {es : List Entry} (h : (identifiers es).Nodup) {i : Nat}
    (hi : i < (identifiers es).length) : placeIn es (identifiers es)[i] = i := by
  obtain ⟨hlt, heq⟩ := List.getElem?_eq_some_iff.1 (getElem?_placeIn (List.getElem_mem hi))
  exact (List.getElem_inj h).1 heq

theorem placeIn_inj {es : List Entry} {a b : String} (ha : a ∈ identifiers es)
    (hb : b ∈ identifiers es) (h : placeIn es a = placeIn es b) : a = b :=
  Option.some.inj ((getElem?_placeIn ha).symm.trans (h ▸ getElem?_placeIn hb))

theorem pairwise_placeIn {es : List Entry} (h : (identifiers es).Nodup) :
    (identifiers es).Pairwise fun a b => placeIn es a ≤ placeIn es b := by
  rw [List.pairwise_iff_getElem]
  intro i j hi hj hij
  rw [placeIn_getElem h hi, placeIn_getElem h hj]
  exact Nat.le_of_lt hij

/-! ## The order of an earlier database -/

theorem isSome_position? (identifier : String) (es : List Entry) :
    (position? identifier es).isSome = decide (identifier ∈ identifiers es) := by
  rw [Bool.eq_iff_iff, decide_eq_true_iff, Option.isSome_iff_ne_none, Ne, position?_eq_none_iff,
    not_not]

theorem identifiers_filter (keeps : String → Bool) (es : List Entry) :
    identifiers (es.filter fun e => keeps e.identifier) = (identifiers es).filter keeps :=
  List.filter_map.symm

/-- The order of distinct identifiers is the order of the entries. -/
theorem eq_of_identifiers {es es' : List Entry} (h : es.Perm es') (hnodup : (identifiers es').Nodup)
    (hsame : identifiers es = identifiers es') : es = es' := by
  refine List.ext_getElem h.length_eq fun i hi hi' => ?_
  have hi₀ : i < (identifiers es).length := by rwa [identifiers, List.length_map]
  have heq : (es[i]).identifier = (es'[i]).identifier := by
    simpa [identifiers] using List.getElem_of_eq hsame hi₀
  exact List.inj_on_of_nodup_map hnodup (h.mem_iff.1 (List.getElem_mem hi)) (List.getElem_mem hi')
    heq

namespace Database

variable {db earlier : Database}

/-- The entries that an earlier database has, in its order. -/
def knownLike (db earlier : Database) : List Entry :=
  (((db.entries.map fun e => (position? e.identifier earlier.entries, e)).filterMap
    fun (place, e) => place.map (·, e)).mergeSort fun a b => a.1 ≤ b.1).map (·.2)

theorem entries_orderLike (db earlier : Database) :
    (db.orderLike earlier).entries = db.knownLike earlier ++
      db.entries.filter fun e => e.identifier ∉ identifiers earlier.entries := by
  simp only [decide_not, ← isSome_position?]
  rw [← filterMap_new fun e => position? e.identifier earlier.entries]
  rfl

theorem perm_knownLike (db earlier : Database) :
    (db.knownLike earlier).Perm
      (db.entries.filter fun e => e.identifier ∈ identifiers earlier.entries) := by
  simp only [← isSome_position?]
  rw [← map_snd_known fun e => position? e.identifier earlier.entries]
  exact (List.mergeSort_perm _ _).map _

theorem pairwise_knownLike (db earlier : Database) :
    (db.knownLike earlier).Pairwise fun a b =>
      placeIn earlier.entries a.identifier ≤ placeIn earlier.entries b.identifier := by
  have hplace : ∀ x ∈ (db.entries.map fun e =>
      (position? e.identifier earlier.entries, e)).filterMap (fun (place, e) => place.map (·, e)),
      placeIn earlier.entries x.2.identifier = x.1 := by
    intro x hx
    obtain ⟨_, hmem, hx⟩ := List.mem_filterMap.1 hx
    obtain ⟨e, -, rfl⟩ := List.mem_map.1 hmem
    obtain ⟨i, hi, rfl⟩ := Option.map_eq_some_iff.1 hx
    rw [placeIn, hi, Option.getD_some]
  rw [knownLike, List.pairwise_map]
  refine (List.pairwise_mergeSort ?_ ?_ _).imp_of_mem fun {a b} ha hb hle => ?_
  · exact fun a b c hab hbc => decide_eq_true
      (Nat.le_trans (of_decide_eq_true hab) (of_decide_eq_true hbc))
  · intro a b
    simpa using Nat.le_total a.1 b.1
  · rw [hplace a (List.mem_mergeSort.1 ha), hplace b (List.mem_mergeSort.1 hb)]
    exact of_decide_eq_true hle

theorem identifiers_knownLike (h : (identifiers db.entries).Nodup)
    (hearlier : (identifiers earlier.entries).Nodup) :
    identifiers (db.knownLike earlier) =
      (identifiers earlier.entries).filter (· ∈ identifiers db.entries) := by
  have hperm : (identifiers (db.knownLike earlier)).Perm
      ((identifiers db.entries).filter (· ∈ identifiers earlier.entries)) :=
    ((perm_knownLike db earlier).map _).trans
      (.of_eq (identifiers_filter (· ∈ identifiers earlier.entries) db.entries))
  have hmem : ∀ identifier, identifier ∈ identifiers (db.knownLike earlier) ↔
      identifier ∈ (identifiers earlier.entries).filter (· ∈ identifiers db.entries) := by
    intro identifier
    rw [hperm.mem_iff]
    simp [and_comm]
  refine List.Perm.eq_of_pairwise ?_ ((pairwise_knownLike db earlier).map _ fun _ _ => id)
    ((pairwise_placeIn hearlier).filter _) ?_
  · -- two identifiers at one place are the same
    intro a b ha hb hab hba
    exact placeIn_inj (List.mem_filter.1 ((hmem a).1 ha)).1 (List.mem_filter.1 hb).1
      (Nat.le_antisymm hab hba)
  · exact (List.perm_ext_iff_of_nodup (hperm.nodup_iff.2 (h.filter _)) (hearlier.filter _)).2 hmem

/-- The order of an earlier database moves the identifiers that it has to the
front, in its order, and leaves the others as they stand. -/
theorem identifiers_orderLike (h : (identifiers db.entries).Nodup)
    (hearlier : (identifiers earlier.entries).Nodup) :
    identifiers (db.orderLike earlier).entries =
      (identifiers earlier.entries).filter (· ∈ identifiers db.entries) ++
        (identifiers db.entries).filter (· ∉ identifiers earlier.entries) := by
  rw [entries_orderLike, identifiers, List.map_append]
  exact congrArg₂ _ (identifiers_knownLike h hearlier)
    (identifiers_filter (· ∉ identifiers earlier.entries) db.entries)

/-- The order of a database with the same identifiers is kept. -/
theorem orderLike_of_identifiers {last : Database} (h : (identifiers db.entries).Nodup)
    (hlast : identifiers last.entries = identifiers (db.orderLike earlier).entries) :
    db.orderLike last = db.orderLike earlier := by
  have hperm := perm_orderLike db earlier
  have hnodup : (identifiers (db.orderLike earlier).entries).Nodup :=
    (hperm.map _).nodup_iff.2 h
  have hmem : ∀ identifier, identifier ∈ identifiers last.entries ↔
      identifier ∈ identifiers db.entries := fun identifier => by
    rw [hlast]
    exact (hperm.map _).mem_iff
  have hsame : identifiers (db.orderLike last).entries =
      identifiers (db.orderLike earlier).entries := by
    rw [identifiers_orderLike h (hlast ▸ hnodup), ← hlast,
      List.filter_eq_self.2 fun a ha => decide_eq_true ((hmem a).1 ha),
      List.filter_eq_nil_iff.2 fun a ha => by simpa using (hmem a).2 ha, List.append_nil]
  have hentries := eq_of_identifiers ((perm_orderLike db last).trans hperm.symm) hnodup hsame
  have hwith : ∀ other, db.orderLike other = { db with entries := (db.orderLike other).entries } :=
    fun _ => rfl
  rw [hwith last, hentries, ← hwith earlier]

end Database

end FlashStrings
