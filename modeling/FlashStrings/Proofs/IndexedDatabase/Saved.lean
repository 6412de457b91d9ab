import FlashStrings.Proofs.IndexedDatabase.Consistent

/-!
# Saving and loading

All places in a reachable database come from its records
(`IndexedDatabase.Reachable.within`): merging notes the place of a record, a
display text takes one that is there, and a text stands at the place it came from
(`Entry.Sourced`).  So if the places of the records fit the file, only the numbers
of uses remain to fit it (`Database.Within.fits`).

Then a database that is saved and loaded again is the same, with the same indices
(`IndexedDatabase.Reachable.load_saved`).
-/

namespace FlashStrings

variable {allowed : Location → Prop}

/-! ## Entries -/

/-- All places of uses and values are allowed. -/
structure Entry.Within (allowed : Location → Prop) (e : Entry) : Prop where
  references : ∀ l ∈ e.references, allowed l
  definitions : ∀ l ∈ e.definitions, allowed l

namespace Entry

variable {e e' : Entry} {c : Candidate}

theorem Within.of_samePlaces (h : e.Within allowed) (hsame : SamePlaces e e') :
    e'.Within allowed :=
  ⟨hsame.references ▸ h.references, hsame.definitions ▸ h.definitions⟩

theorem Within.account (h : e.Within allowed) (hc : allowed c.location) :
    (e.account c).Within allowed := by
  rw [account_eq]
  constructor
  · intro l hl
    rcases List.mem_append.1 hl with hl | hl
    · exact h.references l hl
    · split at hl
      · exact List.mem_singleton.1 hl ▸ hc
      · cases hl
  · intro l hl
    rcases List.mem_append.1 hl with hl | hl
    · exact h.definitions l hl
    · split at hl
      · cases hl
      · exact List.mem_singleton.1 hl ▸ hc

theorem within_create (identifier : String) (hc : allowed c.location) :
    (create identifier c).Within allowed := by
  have hblank : (blank identifier c.origin).Within allowed := ⟨nofun, nofun⟩
  exact (hblank.of_samePlaces (samePlaces_adopt _ c)).account hc

theorem Within.merge (h : e.Within allowed) (hc : allowed c.location) (hm : e.merge c = .ok e') :
    e'.Within allowed := by
  rcases merge_eq_ok hm with ⟨-, rfl⟩ | ⟨-, rfl⟩
  · exact (h.of_samePlaces (samePlaces_promote e c)).account hc
  · exact (h.of_samePlaces ((samePlaces_adopt e c).trans (samePlaces_promote _ c))).account hc

theorem Within.mergeMember (h : e.Within allowed) (hc : allowed c.location)
    (hm : e.mergeMember c = .ok e') : e'.Within allowed := by
  obtain ⟨-, rfl⟩ := mergeMember_eq_ok hm
  exact h.account hc

/-- A text of a consistent entry stands at one of its places. -/
theorem Within.of_at? (h : e.Within allowed) (he : e.Consistent) {key : Option String}
    {t : SitedText} (ht : e.at? key = some t) : allowed t.location := by
  rcases he.texts key t ht with hdefined | ⟨-, -, hfirst⟩
  · exact h.definitions _ hdefined
  · exact h.references _ (List.mem_of_mem_head? hfirst)

/-- An entry fits the file if its places and its number of uses do. -/
theorem Within.fits (h : e.Within (·.fits = true)) (he : e.Consistent)
    (husage : e.usageCount < UInt64.size) : e.fits = true := by
  have hfallback : e.fallback.all (·.location.fits) = true := by
    cases hf : e.fallback with
    | none => rfl
    | some t =>
      have ht : e.at? none = some t := hf
      exact h.of_at? he ht
  have hlocales : e.locales.entries.all (fun t => t.2.location.fits) = true := by
    refine List.all_eq_true.2 fun ⟨code, t⟩ ht => ?_
    have ht : e.at? (some code) = some t := SortedMap.get?_eq_some_iff.2 ht
    exact h.of_at? he ht
  rw [Entry.fits, hfallback, hlocales, List.all_eq_true.2 h.references,
    List.all_eq_true.2 h.definitions, decide_eq_true husage]
  rfl

end Entry

/-! ## Databases -/

namespace Database

/-- All places in a database are allowed. -/
structure Within (allowed : Location → Prop) (db : Database) : Prop where
  entries : ∀ e ∈ db.entries, e.Within allowed
  members : ∀ e ∈ db.autoInit, e.Within allowed
  files : ∀ file f, db.files.get? file = some f → ∀ r ∈ f.records, allowed r.location

variable {db db' : Database} {r : Record}

theorem Within.apply (h : db.Within allowed) (hr : allowed r.location)
    (ha : db.apply r = .ok db') : db'.Within allowed := by
  have hfiles : db'.files = db.files := by
    obtain ⟨entries, autoInit, rfl⟩ := apply_eq_ok ha
    rfl
  by_cases hk : r.kind = .autoInit
  · obtain ⟨hm, hentries⟩ := mergeOrAppend_of_apply_autoInit hk ha
    refine ⟨hentries ▸ h.entries, ?_, hfiles ▸ h.files⟩
    exact forall_of_mergeOrAppend (Entry.within_create _ hr)
      (fun _ _ he => he.mergeMember hr) hm h.members
  · refine ⟨?_, autoInit_of_apply hk ha ▸ h.members, hfiles ▸ h.files⟩
    exact forall_of_mergeOrAppend (Entry.within_create _ hr) (fun _ _ he => he.merge hr)
      (mergeOrAppend_of_apply hk ha) h.entries

theorem Within.fillAutoValues (h : db.Within allowed) : db.fillAutoValues.Within allowed := by
  refine ⟨fun e he => ?_, h.members, h.files⟩
  obtain ⟨e₀, he₀, rfl⟩ := List.mem_map.1 he
  exact (h.entries e₀ he₀).of_samePlaces e₀.samePlaces_filled

theorem Within.withFile (h : db.Within allowed) {file : String} {f : FileRecords}
    (hf : ∀ r ∈ f.records, allowed r.location) :
    Within allowed { db with files := db.files.insert file f } := by
  refine ⟨h.entries, h.members, fun file' f' hf' => ?_⟩
  rw [SortedMap.get?_insert] at hf'
  split at hf'
  · exact Option.some.inj hf' ▸ hf
  · exact h.files file' f' hf'

/-- A consistent database fits the file if its places and its numbers of uses do. -/
theorem Within.fits (h : db.Within (·.fits = true)) (hdb : db.Consistent)
    (husage : ∀ e ∈ db.entries, e.usageCount < UInt64.size) : db.fits = true := by
  have hfiles : db.files.entries.all (fun f => f.2.fits) = true := by
    refine List.all_eq_true.2 fun ⟨file, f⟩ hf => ?_
    exact List.all_eq_true.2 (h.files file f (SortedMap.get?_eq_some_iff.2 hf))
  have hentries : db.entries.all Entry.fits = true := List.all_eq_true.2 fun e he =>
    (h.entries e he).fits (hdb.entries e he).toConsistent (husage e he)
  have hmembers : db.autoInit.all Entry.fits = true := by
    refine List.all_eq_true.2 fun e he => (h.members e he).fits (hdb.members e he).toConsistent ?_
    rw [(hdb.members e he).unused]
    decide
  rw [Database.fits, hfiles, hentries, hmembers]
  rfl

end Database

namespace IndexedDatabase

variable {db : IndexedDatabase}

/-- All places of a reachable database come from its records. -/
theorem Reachable.within (h : Reachable allowed db) : db.database.Within allowed := by
  induction h with
  | empty => exact ⟨nofun, nofun, nofun⟩
  | apply hdb hr ha ih =>
    rw [hdb.apply_eq] at ha
    obtain ⟨db', hdb', rfl⟩ := map_eq_ok (Option.some.inj ha)
    exact ih.apply hr hdb'
  | orderLike hdb hearlier ih _ =>
    rw [hdb.eq_ofDatabase, hearlier.eq_ofDatabase, orderLike_ofDatabase]
    refine ⟨fun e he => ih.entries e ?_, ih.members, ih.files⟩
    exact (Database.perm_orderLike _ _).mem_iff.1 he
  | fillAutoValues _ ih => exact ih.fillAutoValues
  | withFingerprint _ _ ih => exact ⟨ih.entries, ih.members, ih.files⟩
  | withFile file _ hf ih => exact ih.withFile hf
  | reload _ hsave hload ih =>
    obtain ⟨db', hdb', rfl⟩ := map_eq_ok hload
    obtain rfl := Database.load_of_read?_eq_some (FileStep.read?_performAll_ofContent hsave) hdb'
    exact ih

/-- A reachable database that is saved is loaded as it was, with its indices.  So
every look up, every later record and every later save gives the same.  The file
has the version of the layout; all numbers are below 2^64. -/
theorem Reachable.load_saved (h : Reachable (·.fits = true) db)
    (husage : ∀ e ∈ db.database.entries, e.usageCount < UInt64.size) {t t' : FileTree} {p : Path}
    (hsave : FileStep.performAll t (db.saveSteps p) = (t', none)) :
    load t' p = .ok db ∧
      (Json.parse? db.toText).bind Database.versionOf? = some databaseVersion := by
  have hfits := h.within.fits h.consistent_database husage
  constructor
  · rw [load, Database.load_of_saved hsave, if_pos hfits, Except.map, ← h.eq_ofDatabase]
  · rw [toText, Database.parse?_toText, Option.bind_some, Database.versionOf?_toJson]

/-! ### Texts beyond ASCII, saved twice -/

/-- A use with texts, and marks of JSON among them. -/
def wideUse : Record where
  identifier := "Unit"
  kind := .reference
  value := { fallback := some "\"°C\"\n", locales := .ofList [("*", "℃\\"), ("us", "°F\x01")] }
  location := ⟨"src/ä.c", 2, 18446744073709551615⟩

/-- The database of this use and of the file that it is from. -/
def wide : IndexedDatabase :=
  (ofDatabase { entries := [.create wideUse.identifier wideUse.candidate] }).withFile "src/ä.c"
    ⟨"hash", [wideUse]⟩

theorem reachable_wide : Reachable (·.fits = true) wide := by
  refine .withFile _ (.apply (r := wideUse) .empty (by decide) (apply_ofDatabase {} wideUse)) ?_
  exact List.forall_mem_singleton.2 (by decide)

theorem load_saved_wide : ∃ t', load t' ⟨"/db.json"⟩ = .ok wide := by
  have hsave : (FileStep.performAll {} (wide.saveSteps ⟨"/db.json"⟩)).2 = none := by decide +kernel
  exact ⟨_, (reachable_wide.load_saved (by decide +kernel) (Prod.ext rfl hsave)).1⟩

end IndexedDatabase

end FlashStrings
