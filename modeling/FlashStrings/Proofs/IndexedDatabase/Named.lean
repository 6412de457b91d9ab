import FlashStrings.Proofs.IndexedDatabase.Consistent

/-!
# Databases of named strings

An invocation and a text of the settings are accepted only with an identifier of C name
characters.  A new entry or member has the identifier of its record, and no operation
changes one, so a database of such records is named by identifiers throughout
(`IndexedDatabase.NamedReachable.named`).
-/

namespace FlashStrings

namespace IndexedDatabase

/-- The databases that operations lead to from the empty one, when every record that is
taken has an identifier. -/
inductive NamedReachable : IndexedDatabase → Prop where
  | empty : NamedReachable {}
  /-- A record is taken.  One that is rejected changes nothing. -/
  | apply {db db' : IndexedDatabase} {r : Record} :
      NamedReachable db → isIdentifier r.identifier = true → db.apply r = some (.ok db') →
      NamedReachable db'
  /-- The order of an earlier database. -/
  | orderLike {db earlier : IndexedDatabase} :
      NamedReachable db → NamedReachable earlier → NamedReachable (db.orderLike earlier)
  /-- Display texts. -/
  | fillAutoValues {db : IndexedDatabase} :
      NamedReachable db → NamedReachable db.fillAutoValues
  | withFingerprint {db : IndexedDatabase} (fingerprint : String) :
      NamedReachable db → NamedReachable (db.withFingerprint fingerprint)
  | withFile {db : IndexedDatabase} (file : String) (f : FileRecords) :
      NamedReachable db → NamedReachable (db.withFile file f)
  /-- The database is saved at a path and loaded from there. -/
  | reload {db db' : IndexedDatabase} {t t' : FileTree} {p : Path} :
      NamedReachable db → FileStep.performAll t (db.saveSteps p) = (t', none) →
      load t' p = .ok db' → NamedReachable db'

variable {db : IndexedDatabase}

theorem NamedReachable.reachable (h : NamedReachable db) : Reachable (fun _ => True) db := by
  induction h with
  | empty => exact .empty
  | apply _ _ ha ih => exact .apply ih trivial ha
  | orderLike _ _ ih ih' => exact .orderLike ih ih'
  | fillAutoValues _ ih => exact .fillAutoValues ih
  | withFingerprint fingerprint _ ih => exact .withFingerprint fingerprint ih
  | withFile file f _ ih => exact .withFile file ih fun _ _ => trivial
  | reload _ hsave hload ih => exact .reload ih hsave hload

end IndexedDatabase

namespace Database

variable {db db' : Database} {r : Record}

/-- Entries and members are named by identifiers. -/
def Named (db : Database) : Prop :=
  ∀ e ∈ db.entries ++ db.autoInit, isIdentifier e.identifier = true

theorem Named.apply (h : db.Named) (hr : isIdentifier r.identifier = true)
    (ha : db.apply r = .ok db') : db'.Named := by
  obtain ⟨hentries, hmembers⟩ := List.forall_mem_append.1 h
  have hcreate : isIdentifier (Entry.create r.identifier r.candidate).identifier = true := by
    rwa [Entry.identifier_create]
  refine List.forall_mem_append.2 ?_
  by_cases hk : r.kind = .autoInit
  · obtain ⟨hm, hsame⟩ := mergeOrAppend_of_apply_autoInit hk ha
    refine ⟨hsame ▸ hentries, ?_⟩
    refine forall_of_mergeOrAppend hcreate (fun e e' he hmerge => ?_) hm hmembers
    rwa [Entry.identifier_of_mergeMember hmerge]
  · refine ⟨forall_of_mergeOrAppend hcreate (fun e e' he hmerge => ?_)
      (mergeOrAppend_of_apply hk ha) hentries, autoInit_of_apply hk ha ▸ hmembers⟩
    rwa [Entry.identifier_of_merge hmerge]

theorem Named.of_identifiers (h : db.Named)
    (hentries : identifiers db'.entries ⊆ identifiers db.entries)
    (hmembers : db'.autoInit = db.autoInit) : db'.Named := by
  obtain ⟨hnamed, hmembersNamed⟩ := List.forall_mem_append.1 h
  refine List.forall_mem_append.2 ⟨fun e he => ?_, hmembers ▸ hmembersNamed⟩
  obtain ⟨e₀, he₀, heq⟩ := List.mem_map.1 (hentries (List.mem_map_of_mem he))
  exact heq ▸ hnamed e₀ he₀

end Database

namespace IndexedDatabase

variable {db : IndexedDatabase}

/-- All names in a database of such records are identifiers. -/
theorem NamedReachable.named (h : NamedReachable db) : db.database.Named := by
  induction h with
  | empty => exact nofun
  | apply hdb hr ha ih =>
    rw [hdb.reachable.apply_eq] at ha
    obtain ⟨db', hdb', rfl⟩ := map_eq_ok (Option.some.inj ha)
    exact ih.apply hr hdb'
  | orderLike hdb hearlier ih _ =>
    rw [hdb.reachable.eq_ofDatabase, hearlier.reachable.eq_ofDatabase, orderLike_ofDatabase]
    exact ih.of_identifiers ((Database.perm_orderLike _ _).map _).subset rfl
  | fillAutoValues _ ih =>
    exact ih.of_identifiers (fun _ hx => identifiers_fillAutoValues _ ▸ hx) rfl
  | withFingerprint _ _ ih => exact ih
  | withFile _ _ _ ih => exact ih
  | reload _ hsave hload ih =>
    obtain ⟨db', hdb', rfl⟩ := map_eq_ok hload
    obtain rfl := Database.load_of_read?_eq_some (FileStep.read?_performAll_ofContent hsave) hdb'
    exact ih

end IndexedDatabase

end FlashStrings
