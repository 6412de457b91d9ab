import FlashStrings.Outputs
import FlashStrings.Proofs.Project.Fingerprint
import FlashStrings.Proofs.Run.Cache
import FlashStrings.Proofs.Stored.Load

/-!
# Saved databases

`SavedBy hashed q content` says that `content` is the database file that a run of
the project `q` saved, after any number of other runs: over other trees, with
other settings and other defines.

Such a file holds a database with the fingerprint of `q`, and each of its records
was found by a scan of this run or of one before it.  So what holds of all new
records, and goes over to projects with the same fingerprint, holds of all
records of the file (`SavedBy.keeps`).

The fingerprint tells the string defines, so a project may only use records that
were found with its own.  Hence a run with a saved database finds the same as one
that scans all files (`Project.run_eq_rescan`).
-/

namespace FlashStrings

/-! ## Histories -/

namespace Project

/-- What every project that is run has. -/
structure Regular (p : Project) (hashed : Bytes → Prop) : Prop where
  /-- The string defines are those of the settings and some more. -/
  defines : ∃ more, p.defines = p.config.stringDefines more
  /-- The message of the fingerprint is not left out. -/
  settings : hashed (Utf8.encode p.scanText)

theorem Regular.readable {p : Project} {hashed : Bytes → Prop} (h : p.Regular hashed) :
    p.defines.Readable := by
  obtain ⟨more, h⟩ := h.defines
  rw [h]
  exact readable_stringDefines _

/-- A run of the project over the tree succeeds and saves this database file. -/
structure Saves (p : Project) (hashed : Bytes → Prop) (t : FileTree) (content : Bytes) : Prop where
  /-- The string defines are those of the settings and some more. -/
  defines : ∃ more, p.defines = p.config.stringDefines more
  /-- No message that the run makes a hash of is left out. -/
  hashes : ∀ m, p.Hashes t m → hashed m
  /-- The run and its write succeed. -/
  writes : ∃ o t' summary, p.run t = .ok o ∧ p.write t o = (t', .ok summary) ∧
    t'.read? p.databasePath = some content

theorem Saves.regular {p : Project} {hashed : Bytes → Prop} {t : FileTree} {content : Bytes}
    (h : p.Saves hashed t content) : p.Regular hashed := ⟨h.defines, h.hashes _ .settings⟩

end Project

/-- A database file that a run of a project saved, last of any number of runs. -/
inductive SavedBy (hashed : Bytes → Prop) : Project → Bytes → Prop where
  /-- There was no database file before. -/
  | first {p : Project} {t : FileTree} {content : Bytes} :
      t.read? p.databasePath = none → p.Saves hashed t content → SavedBy hashed p content
  /-- The file before was saved by a run of some project. -/
  | next {p q : Project} {t : FileTree} {before content : Bytes} :
      SavedBy hashed q before → t.read? p.databasePath = some before →
      p.Saves hashed t content → SavedBy hashed p content

/-! ## What a run saves -/

/-- A property of the records of a file that a project may have. -/
abbrev FileRecords.Property := Project → String → FileRecords → Prop

/-- A database as a run of the project leaves it: it has the fingerprint of the
project, and its records have a property. -/
structure Database.Keeps (P : FileRecords.Property) (p : Project) (db : Database) : Prop where
  /-- The fingerprint is that of the project. -/
  fingerprint : db.fingerprint = p.fingerprint
  /-- The records have the property. -/
  records : ∀ file f, db.files.get? file = some f → P p file f

namespace Project

variable {p q : Project} {t : FileTree} {hashed : Bytes → Prop}

theorem fingerprint_eq_of_canReuse {earlier : Database} (h : p.canReuse earlier = true) :
    earlier.fingerprint = p.fingerprint := by
  simp only [canReuse, Bool.and_eq_true, beq_iff_eq] at h
  exact h.2

theorem get?_known {earlier : Database} {file : String} {f : FileRecords}
    (h : (p.known earlier).get? file = some f) :
    p.canReuse earlier = true ∧ earlier.files.get? file = some f := by
  rw [known] at h
  split at h
  · next hreuse => exact ⟨hreuse, h⟩
  · cases h

/-- A run without a database file is one after an empty database. -/
theorem run_of_has (h : t.has p.databasePath = false) : p.run t = .ok (p.runAfter t {}) := by
  rw [run, Database.load_of_has h]
  rfl

/-- A write succeeds after a run without errors if its steps do. -/
theorem write_eq_ok_iff {o : Outcome} {t' : FileTree} {summary : WriteSummary} :
    p.write t o = (t', .ok summary) ↔ Issue.anyError o.issues = false ∧
      FileStep.performAll t (p.writeSteps t o) = (t', none) ∧ p.writeSummary t o = summary := by
  rw [write]
  cases Issue.anyError o.issues with
  | true => simp
  | false =>
    rw [if_neg Bool.false_ne_true]
    rcases FileStep.performAll t (p.writeSteps t o) with ⟨t₁, _ | s⟩ <;> simp

/-- The trees on the way of a write that goes through: with the header, with the source
as well, and with the database. -/
structure Way (p : Project) (o : Outcome) (t t₁ t₂ t' : FileTree) : Prop where
  /-- The header is replaced first. -/
  declaration : FileStep.performAll t (p.declarationSteps t o) = (t₁, none)
  /-- The source is replaced after it. -/
  definition : FileStep.performAll t₁
    (FileStep.ofChange t₁ p.definitionPath o.generated.definition) = (t₂, none)
  /-- The database comes last. -/
  database : FileStep.performAll t₂ (p.databaseSteps o) = (t', none)

/-- The steps of a write replace the files one after the other. -/
theorem performAll_writeSteps_iff {o : Outcome} {t' : FileTree} :
    FileStep.performAll t (p.writeSteps t o) = (t', none) ↔ ∃ t₁ t₂, p.Way o t t₁ t₂ t' := by
  rw [writeSteps]
  constructor
  · intro h
    obtain ⟨t₂, h, hdatabase⟩ := FileStep.performAll_append h
    obtain ⟨t₁, hdeclaration, hdefinition⟩ := FileStep.performAll_append h
    rw [definitionSteps, hdeclaration] at hdefinition
    exact ⟨t₁, t₂, hdeclaration, hdefinition, hdatabase⟩
  · rintro ⟨t₁, t₂, h⟩
    rw [List.append_assoc, FileStep.performAll_append_of_eq h.declaration, definitionSteps,
      h.declaration, FileStep.performAll_append_of_eq h.definition, h.database]

/-- A write that succeeds comes after a run without errors and saves its database. -/
theorem read?_write {o : Outcome} {t' : FileTree} {summary : WriteSummary}
    (h : p.write t o = (t', .ok summary)) : Issue.anyError o.issues = false ∧
      t'.read? p.databasePath = some (Utf8.encode o.database.toText) := by
  obtain ⟨hok, hsteps, -⟩ := write_eq_ok_iff.1 h
  obtain ⟨_, _, hway⟩ := performAll_writeSteps_iff.1 hsteps
  exact ⟨hok, FileStep.read?_performAll_ofContent hway.database⟩

/-- A run over records with a property leaves such records, if all new ones have it. -/
theorem Saves.keeps {P : FileRecords.Property} {content : Bytes} (h : p.Saves hashed t content)
    (hnew : ∀ file ∈ p.sources.files t, ∀ s, p.scanFile t ∅ file = .ok s → s.errors = [] →
      P p s.file s.records)
    (hknown : ∀ earlier, Database.load t p.databasePath = .ok earlier →
      ∀ file f, (p.known earlier).get? file = some f → P p file f) :
    ∃ db : Database, Utf8.encode db.toText = content ∧ db.Keeps P p := by
  obtain ⟨o, t', summary, hrun, hwrite, hread⟩ := h.writes
  obtain ⟨herror, hsaved⟩ := read?_write hwrite
  refine ⟨o.database, Option.some.inj (hsaved.symm.trans hread), ?_⟩
  rw [run] at hrun
  obtain ⟨earlier, hload, rfl⟩ := map_eq_ok hrun
  refine ⟨fingerprint_runAfter .., ?_⟩
  intro file f hf
  obtain ⟨s, hs, rfl, rfl⟩ := scan_of_get?_files hf
  obtain ⟨_, hs', herrors⟩ := scan_of_no_error herror hs
  obtain rfl := Except.ok.inj hs'
  obtain ⟨file, hfile, hscan⟩ := List.mem_map.1 hs
  rcases scanFile_eq_ok hscan with hscan | hget
  · exact hnew file hfile s hscan herrors
  · exact hknown earlier hload _ _ hget

end Project

/-! ## What a history keeps -/

section

variable {hashed : Bytes → Prop} {P : FileRecords.Property}

/-- What holds of all new records, and of records of other projects with the same
fingerprint, holds of all records of a saved database. -/
theorem SavedBy.keeps {p : Project} {content : Bytes} (h : SavedBy hashed p content)
    (hnew : ∀ p t content, Project.Saves p hashed t content → ∀ file ∈ p.sources.files t,
      ∀ s, p.scanFile t ∅ file = .ok s → s.errors = [] → P p s.file s.records)
    (hreuse : ∀ p q, p.Regular hashed → q.Regular hashed → p.fingerprint = q.fingerprint →
      ∀ file f, P q file f → P p file f) :
    p.Regular hashed ∧ ∃ db : Database, Utf8.encode db.toText = content ∧ db.Keeps P p := by
  induction h with
  | first hread hsaves =>
    refine ⟨hsaves.regular, hsaves.keeps (hnew _ _ _ hsaves) fun earlier hload file f hf => ?_⟩
    obtain rfl := Database.load_of_read?_eq_none hread hload
    cases (Project.get?_known hf).2
  | next _ hread hsaves ih =>
    obtain ⟨hregular, db, rfl, hdb⟩ := ih
    refine ⟨hsaves.regular, hsaves.keeps (hnew _ _ _ hsaves) fun earlier hload file f hf => ?_⟩
    obtain rfl := Database.load_of_read?_eq_some hread hload
    obtain ⟨hsame, hget⟩ := Project.get?_known hf
    refine hreuse _ _ hsaves.regular hregular ?_ file f (hdb.records file f hget)
    exact (Project.fingerprint_eq_of_canReuse hsame).symm.trans hdb.fingerprint

end

namespace Project

variable {p q : Project} {t : FileTree} {hashed : Bytes → Prop}

/-- The project has no database file, or one that runs of projects saved. -/
def HasSavedDatabase (p : Project) (hashed : Bytes → Prop) (t : FileTree) : Prop :=
  ∀ content, t.read? p.databasePath = some content → ∃ q, SavedBy hashed q content

/-- What a history keeps holds of the records that a run may take from it. -/
theorem HasSavedDatabase.of_known {P : FileRecords.Property} (h : p.HasSavedDatabase hashed t)
    (hnew : ∀ p t content, Project.Saves p hashed t content → ∀ file ∈ p.sources.files t,
      ∀ s, p.scanFile t ∅ file = .ok s → s.errors = [] → P p s.file s.records)
    (hreuse : ∀ p q, p.Regular hashed → q.Regular hashed → p.fingerprint = q.fingerprint →
      ∀ file f, P q file f → P p file f)
    (hlast : ∀ q, q.Regular hashed → p.fingerprint = q.fingerprint →
      ∀ file f, P q file f → P p file f)
    {earlier : Database} (hload : Database.load t p.databasePath = .ok earlier) {file : String}
    {f : FileRecords} (hf : (p.known earlier).get? file = some f) : P p file f := by
  cases hread : t.read? p.databasePath with
  | none =>
    obtain rfl := Database.load_of_read?_eq_none hread hload
    cases (get?_known hf).2
  | some content =>
    obtain ⟨q, hq⟩ := h content hread
    obtain ⟨hregular, db, rfl, hdb⟩ := hq.keeps hnew hreuse
    obtain rfl := Database.load_of_read?_eq_some hread hload
    obtain ⟨hsame, hget⟩ := get?_known hf
    exact hlast q hregular ((fingerprint_eq_of_canReuse hsame).symm.trans hdb.fingerprint) file f
      (hdb.records file f hget)

/-- What holds of the records of every new scan holds of those of every source, also if it
is not scanned again. -/
theorem HasSavedDatabase.of_mem_scans {P : FileRecords.Property} (h : p.HasSavedDatabase hashed t)
    (hnew : ∀ p t file s, p.scanFile t ∅ file = .ok s → P p s.file s.records)
    (hany : ∀ p q file f, P q file f → P p file f) {earlier : Database}
    (hload : Database.load t p.databasePath = .ok earlier) {s : FileScan}
    (hs : .ok s ∈ p.scans t earlier) : P p s.file s.records := by
  obtain ⟨file, -, hscan⟩ := List.mem_map.1 hs
  rcases scanFile_eq_ok hscan with hscan | hknown
  · exact hnew p t file s hscan
  · exact h.of_known (fun p t _ _ file _ s hs _ => hnew p t file s hs)
      (fun p q _ _ _ file f => hany p q file f) (fun q _ _ file f => hany p q file f) hload hknown

/-! ## Runs with a saved database -/

/-- Projects with one fingerprint have the same string defines. -/
theorem defines_eq_of_fingerprint_eq (hfree : CollisionFree hashed) (hp : p.Regular hashed)
    (hq : q.Regular hashed) (h : p.fingerprint = q.fingerprint) : p.defines = q.defines :=
  defines_eq_of_scanText_eq hp.readable hq.readable
    (Utf8.encode_injective (hfree _ _ hp.settings hq.settings h))

/-- The records of a history come from scans with the defines of its project. -/
def KeptOfScan (hashed : Bytes → Prop) : FileRecords.Property := fun p file f =>
  f.OfScan hashed p.defines file

theorem keptOfScan_of_saves (p : Project) (t : FileTree) (content : Bytes)
    (h : p.Saves hashed t content) (file : String) (hfile : file ∈ p.sources.files t)
    (s : FileScan) (hs : p.scanFile t ∅ file = .ok s) (herrors : s.errors = []) :
    KeptOfScan hashed p s.file s.records :=
  ofScan_of_scanFile h.hashes hfile hs herrors

theorem keptOfScan_of_fingerprint_eq (hfree : CollisionFree hashed) (p q : Project)
    (hp : p.Regular hashed) (hq : q.Regular hashed) (h : p.fingerprint = q.fingerprint)
    (file : String) (f : FileRecords) (hf : KeptOfScan hashed q file f) :
    KeptOfScan hashed p file f := by
  rw [KeptOfScan, defines_eq_of_fingerprint_eq hfree hp hq h]
  exact hf

/-- A run with a saved database takes only records that it can trust. -/
theorem HasSavedDatabase.canTrust (h : p.HasSavedDatabase hashed t) (hfree : CollisionFree hashed)
    (hp : p.Regular hashed) {earlier : Database}
    (hload : Database.load t p.databasePath = .ok earlier) :
    p.CanTrust hashed (p.known earlier) := fun _ _ hf =>
  h.of_known keptOfScan_of_saves (keptOfScan_of_fingerprint_eq hfree)
    (fun q hq => keptOfScan_of_fingerprint_eq hfree p q hp hq) hload hf

/-- A saved database changes nothing but the count of sources whose records come
from it.  No source has an error that its records hide, and records that were
found with other string defines are not used. -/
theorem run_eq_rescan {more : List String} (hdefines : p.defines = p.config.stringDefines more)
    (hfree : CollisionFree hashed) (hhashed : ∀ m, p.Hashes t m → hashed m)
    (hsaved : p.HasSavedDatabase hashed t) :
    (p.run t).map Outcome.uncached =
        (({ p with force := true } : Project).run t).map Outcome.uncached ∧
      ∀ earlier, Database.load t p.databasePath = .ok earlier →
        (∀ file ∈ p.sources.files t,
          (p.scanFile t (p.known earlier) file).map FileScan.fresh = p.scanFile t ∅ file) ∧
        ∀ content q, t.read? p.databasePath = some content → SavedBy hashed q content →
          q.defines ≠ p.defines → p.canReuse earlier = false := by
  have hp : p.Regular hashed := ⟨⟨more, hdefines⟩, hhashed _ .settings⟩
  refine ⟨?_, fun earlier hload => ⟨fun file hfile => ?_, fun content q hread hq hne => ?_⟩⟩
  · rw [run, run]
    show (Except.map _ (Database.load t p.databasePath)).map _ =
      (Except.map _ (Database.load t p.databasePath)).map _
    cases hload : Database.load t p.databasePath with
    | error _ => rfl
    | ok earlier =>
      exact congrArg Except.ok (uncached_runAfter hfree hhashed (hsaved.canTrust hfree hp hload))
  · exact fresh_scanFile hfree hhashed (hsaved.canTrust hfree hp hload) hfile
  · obtain ⟨hregular, db, rfl, hdb⟩ :=
      hq.keeps keptOfScan_of_saves (keptOfScan_of_fingerprint_eq hfree)
    obtain rfl := Database.load_of_read?_eq_some hread hload
    cases hreuse : p.canReuse earlier with
    | false => rfl
    | true =>
      have hsame : p.fingerprint = q.fingerprint :=
        (fingerprint_eq_of_canReuse hreuse).symm.trans hdb.fingerprint
      exact absurd (defines_eq_of_fingerprint_eq hfree hp hregular hsame).symm hne

/-! ### A project with one source, run twice -/

/-- The content of the source. -/
def sampleSource : Bytes := Utf8.encode "SPGM(Hi, \"Hi\")\n"

/-- The project. -/
def sample : Project := { root := ⟨"/p"⟩, config := { includes := ["src"] } }

/-- The project, with all sources scanned anew. -/
def forcedSample : Project := { sample with force := true }

/-- The tree before the first run. -/
def sampleTree : FileTree where
  nodes := .ofList [(["p"], .directory), (["p", ".spgm"], .directory), (["p", "src"], .directory),
    (["p", "src", "a.c"], .file sampleSource)]

/-- The database file that the first run saves. -/
def sampleSaved : Bytes := Utf8.encode (forcedSample.runAfter sampleTree {}).database.toText

/-- The tree before the second run. -/
def sampleSavedTree : FileTree :=
  sampleTree.put ["p", ".spgm", "database.json"] (.file sampleSaved)

/-- The messages that runs of the project make hashes of, over this one source. -/
def sampleHashed (source m : Bytes) : Prop := m = Utf8.encode sample.scanText ∨ m = source

theorem collisionFree_sampleHashed {source : Bytes}
    (hne : sha256Hex (Utf8.encode sample.scanText) ≠ sha256Hex source) :
    CollisionFree (sampleHashed source) := by
  rintro _ _ (rfl | rfl) (rfl | rfl) h
  · rfl
  · exact absurd h hne
  · exact absurd h.symm hne
  · rfl

theorem collisionFree_sampleSource : CollisionFree (sampleHashed sampleSource) :=
  collisionFree_sampleHashed (by decide +kernel)

theorem sampleHashed_of_hashes {p : Project} {t : FileTree} {source : Bytes}
    (hroot : p.root = sample.root) (htext : p.scanText = sample.scanText)
    (hfiles : p.sources.files t = ["src/a.c"]) (hread : t.read? ⟨"/p/src/a.c"⟩ = some source)
    (m : Bytes) (h : p.Hashes t m) : sampleHashed source m := by
  cases h with
  | settings => exact .inl (by rw [htext])
  | source hfile hcontent =>
    rw [hfiles, List.mem_singleton] at hfile
    subst hfile
    rw [hroot] at hcontent
    exact .inr (Option.some.inj (hcontent.symm.trans hread))

/-- A first run whose write succeeds saves its database. -/
theorem saves_of_isOk {p : Project} {t : FileTree} {hashed : Bytes → Prop}
    (hdefines : ∃ more, p.defines = p.config.stringDefines more)
    (hhashes : ∀ m, p.Hashes t m → hashed m) (hnone : t.has p.databasePath = false)
    (hok : (p.write t (p.runAfter t {})).2.isOk = true) :
    p.Saves hashed t (Utf8.encode (p.runAfter t {}).database.toText) where
  defines := hdefines
  hashes := hhashes
  writes := by
    cases hwrite : p.write t (p.runAfter t {}) with
    | mk t' result =>
      rw [hwrite] at hok
      cases result with
      | error _ => cases hok
      | ok summary => exact ⟨_, t', summary, run_of_has hnone, hwrite, (read?_write hwrite).2⟩

theorem saves_sampleSaved : forcedSample.Saves (sampleHashed sampleSource) sampleTree sampleSaved :=
  saves_of_isOk ⟨[], rfl⟩ (sampleHashed_of_hashes rfl rfl (by decide +kernel) (by decide +kernel))
    (by decide +kernel) (by decide +kernel)

theorem hasSavedDatabase_sampleSavedTree :
    sample.HasSavedDatabase (sampleHashed sampleSource) sampleSavedTree := by
  intro content hread
  have hplace : sampleTree.writable? sample.databasePath =
      some ["p", ".spgm", "database.json"] := by decide +kernel
  obtain rfl := Option.some.inj ((FileTree.read?_put hplace).symm.trans hread)
  exact ⟨forcedSample, .first (by decide +kernel) saves_sampleSaved⟩

theorem run_eq_rescan_sample :
    (sample.run sampleSavedTree).map Outcome.uncached =
      (({ sample with force := true } : Project).run sampleSavedTree).map Outcome.uncached :=
  (run_eq_rescan (show sample.defines = sample.config.stringDefines [] from rfl)
    collisionFree_sampleSource
    (sampleHashed_of_hashes rfl rfl (by decide +kernel) (by decide +kernel))
    hasSavedDatabase_sampleSavedTree).1

end Project

end FlashStrings
