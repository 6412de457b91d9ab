import FlashStrings.IndexedDatabase
import FlashStrings.Proofs.Merge.Entry
import FlashStrings.Proofs.Merge.Lookup
import FlashStrings.Proofs.SortedMap

/-!
# Indices and places

An index that is made anew holds the place that a search finds
(`get?_placesOf`), and appending and merging keep it that way
(`mergeAtPlace_placesOf`).  So on a database whose indices are those of its lists
every operation gives what the operation without indices gives, with the indices
of that, and no index leads out of its list (`IndexedDatabase.apply_ofDatabase`).

`IndexedDatabase.Reachable` are the databases that operations lead to.  All of
them have the indices of their lists (`IndexedDatabase.Reachable.eq_ofDatabase`).
-/

namespace FlashStrings

/-! ## The places of a list -/

theorem get?_foldl_places (identifier : String) (es : List Entry) (n : Nat) (m : TextMap Nat) :
    (((es.zipIdx n).map fun (e, i) => (e.identifier, i)).foldl
        (fun m x => m.insert x.1 x.2) m).get? identifier =
      ((position? identifier es).map (· + n)).or (m.get? identifier) := by
  induction es generalizing n m with
  | nil => rfl
  | cons e es ih =>
    rw [List.zipIdx_cons, List.map_cons, List.foldl_cons, ih, SortedMap.get?_insert]
    cases hes : position? identifier es with
    | some i =>
      rw [position?_cons_of_eq_some hes]
      simp only [Option.map_some, Option.some_or, Option.some.injEq]
      omega
    | none =>
      rw [position?_cons_of_eq_none hes]
      by_cases he : e.identifier = identifier
      · simp [he]
      · simp [he, Ne.symm he]

/-- An index holds the place that a search in the list finds. -/
theorem get?_placesOf (identifier : String) (es : List Entry) :
    (placesOf es).get? identifier = position? identifier es := by
  rw [placesOf, SortedMap.ofList, get?_foldl_places]
  cases position? identifier es <;> rfl

theorem placesOf_congr {es es' : List Entry} (h : identifiers es = identifiers es') :
    placesOf es = placesOf es' :=
  SortedMap.ext_get? fun identifier => by rw [get?_placesOf, get?_placesOf, position?_congr h]

/-- An entry that is appended stands at the end. -/
theorem placesOf_append (es : List Entry) (e : Entry) :
    placesOf (es ++ [e]) = (placesOf es).insert e.identifier es.length := by
  refine SortedMap.ext_get? fun identifier => ?_
  rw [get?_placesOf, position?_append, SortedMap.get?_insert, get?_placesOf]
  simp only [eq_comm]

/-- When identifiers are distinct, an index holds the place of every entry and no
other. -/
theorem get?_placesOf_eq_some_iff {es : List Entry} (h : (identifiers es).Nodup)
    {identifier : String} {i : Nat} :
    (placesOf es).get? identifier = some i ↔ (identifiers es)[i]? = some identifier := by
  rw [get?_placesOf]
  constructor
  · intro hp
    obtain ⟨e, he, hid⟩ := getElem?_position? hp
    rw [identifiers, List.getElem?_map, he, Option.map_some, hid]
  · intro hi
    have hmem : identifier ∈ identifiers es := List.mem_of_getElem? hi
    cases hp : position? identifier es with
    | none => exact absurd hmem (position?_eq_none_iff.1 hp)
    | some j =>
      obtain ⟨e, he, hid⟩ := getElem?_position? hp
      have hj : (identifiers es)[j]? = some identifier := by
        rw [identifiers, List.getElem?_map, he, Option.map_some, hid]
      obtain ⟨hi', hi⟩ := List.getElem?_eq_some_iff.1 hi
      obtain ⟨hj', hj⟩ := List.getElem?_eq_some_iff.1 hj
      rw [(List.getElem_inj h).1 (hj.trans hi.symm)]

/-- With the index of its list, merging is merging without an index, and leaves
the index of the new list. -/
theorem mergeAtPlace_placesOf {merge : Entry → Candidate → Except (List Conflict) Entry}
    (hmerge : ∀ e c e', merge e c = .ok e' → e'.identifier = e.identifier) (identifier : String)
    (c : Candidate) (es : List Entry) :
    mergeAtPlace merge identifier c es (placesOf es) =
      some ((mergeOrAppend merge identifier c es).map fun es' => (es', placesOf es')) := by
  rw [mergeAtPlace, get?_placesOf]
  cases hp : position? identifier es with
  | none =>
    have hnone : entryOf? identifier es = none :=
      entryOf?_eq_none_iff.2 (position?_eq_none_iff.1 hp)
    rw [mergeOrAppend_of_eq_none hnone, Except.map, placesOf_append, Entry.identifier_create]
  | some i =>
    obtain ⟨e, he, -⟩ := getElem?_position? hp
    have hkept : ∀ e', merge e c = .ok e' → placesOf (es.set i e') = placesOf es := fun e' hm =>
      placesOf_congr (identifiers_set he (hmerge e c e' hm))
    simp only [mergeOrAppend, hp, Option.bind_some, he, Option.map_some]
    cases hm : merge e c with
    | error new => rfl
    | ok e' => simp only [Except.map, hkept e' hm]

/-! ## Operations -/

theorem Database.orderLike_eq (db earlier : Database) :
    db.orderLike earlier =
      { db with entries := orderBy (position? · earlier.entries) db.entries } := rfl

theorem identifiers_fillAutoValues (db : Database) :
    identifiers db.fillAutoValues.entries = identifiers db.entries := by
  rw [identifiers, Database.fillAutoValues, List.map_map]
  refine List.map_congr_left fun e _ => ?_
  rw [Function.comp_apply, Entry.fillAutoValue?]
  split
  · rfl
  · cases e.references.head? <;> rfl

namespace IndexedDatabase

variable {db earlier : Database} {r : Record}

theorem lookup?_ofDatabase (db : Database) (identifier : String) :
    (ofDatabase db).lookup? identifier = db.lookup? identifier := by
  rw [lookup?, ofDatabase, get?_placesOf, Database.lookup?]

/-- Taking a record keeps the indices, and they do not lead out of the lists. -/
theorem apply_ofDatabase (db : Database) (r : Record) :
    (ofDatabase db).apply r = some ((db.apply r).map ofDatabase) := by
  have hmerge : ∀ (e : Entry) c e', e.merge c = .ok e' → e'.identifier = e.identifier :=
    fun _ _ _ => Entry.identifier_of_merge
  have hmember : ∀ (e : Entry) c e', e.mergeMember c = .ok e' → e'.identifier = e.identifier :=
    fun _ _ _ => Entry.identifier_of_mergeMember
  cases hk : r.kind with
  | autoInit =>
    simp only [apply, Database.apply, hk, ofDatabase, mergeAtPlace_placesOf hmember,
      Database.upsertMember, Option.map_some]
    cases mergeOrAppend Entry.mergeMember r.identifier r.candidate db.autoInit <;> rfl
  | definition | reference =>
    simp only [apply, Database.apply, hk, ofDatabase, mergeAtPlace_placesOf hmerge,
      Database.upsert, Option.map_some]
    cases mergeOrAppend Entry.merge r.identifier r.candidate db.entries <;> rfl

theorem orderLike_ofDatabase (db earlier : Database) :
    (ofDatabase db).orderLike (ofDatabase earlier) = ofDatabase (db.orderLike earlier) := by
  have hplace : (placesOf earlier.entries).get? = (position? · earlier.entries) :=
    funext fun identifier => get?_placesOf identifier earlier.entries
  rw [orderLike, Database.orderLike_eq]
  show ofDatabase { db with entries := orderBy (placesOf earlier.entries).get? db.entries } = _
  rw [hplace]

theorem fillAutoValues_ofDatabase (db : Database) :
    (ofDatabase db).fillAutoValues = ofDatabase db.fillAutoValues := by
  rw [fillAutoValues, ofDatabase, ofDatabase, placesOf_congr (identifiers_fillAutoValues db)]
  rfl

/-! ## Reachable databases -/

/-- The databases that operations lead to from the empty one.  All places that
come in with records are `allowed`. -/
inductive Reachable (allowed : Location → Prop) : IndexedDatabase → Prop where
  | empty : Reachable allowed {}
  /-- A record is taken.  One that is rejected changes nothing. -/
  | apply {db db' : IndexedDatabase} {r : Record} :
      Reachable allowed db → allowed r.location → db.apply r = some (.ok db') →
      Reachable allowed db'
  /-- The order of an earlier database. -/
  | orderLike {db earlier : IndexedDatabase} :
      Reachable allowed db → Reachable allowed earlier → Reachable allowed (db.orderLike earlier)
  /-- Display texts. -/
  | fillAutoValues {db : IndexedDatabase} :
      Reachable allowed db → Reachable allowed db.fillAutoValues
  | withFingerprint {db : IndexedDatabase} (fingerprint : String) :
      Reachable allowed db → Reachable allowed (db.withFingerprint fingerprint)
  | withFile {db : IndexedDatabase} (file : String) {f : FileRecords} :
      Reachable allowed db → (∀ r ∈ f.records, allowed r.location) →
      Reachable allowed (db.withFile file f)
  /-- The database is saved at a path and loaded from there. -/
  | reload {db db' : IndexedDatabase} {t t' : FileTree} {p : Path} :
      Reachable allowed db → FileStep.performAll t (db.saveSteps p) = (t', none) →
      load t' p = .ok db' → Reachable allowed db'

namespace Reachable

variable {allowed : Location → Prop} {db : IndexedDatabase}

/-- The indices of a reachable database are those of its lists. -/
theorem eq_ofDatabase (h : Reachable allowed db) : db = ofDatabase db.database := by
  induction h with
  | empty => rfl
  | apply _ _ ha ih =>
    rw [ih, apply_ofDatabase] at ha
    obtain ⟨db', -, rfl⟩ := map_eq_ok (Option.some.inj ha)
    rfl
  | orderLike _ _ _ _ => rfl
  | fillAutoValues _ ih =>
    rw [ih, fillAutoValues_ofDatabase]
    rfl
  | withFingerprint _ _ ih =>
    rw [ih]
    rfl
  | withFile _ _ _ ih =>
    rw [ih]
    rfl
  | reload _ _ hload _ =>
    obtain ⟨db', -, rfl⟩ := map_eq_ok hload
    rfl

/-- A record is taken by a reachable database as it is without indices. -/
theorem apply_eq (h : Reachable allowed db) (r : Record) :
    db.apply r = some ((db.database.apply r).map ofDatabase) := by
  rw [h.eq_ofDatabase]
  exact apply_ofDatabase db.database r

end Reachable

end IndexedDatabase

end FlashStrings
