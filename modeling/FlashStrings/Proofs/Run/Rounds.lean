import FlashStrings.Proofs.IndexedDatabase.Built
import FlashStrings.Proofs.Run.Order
import FlashStrings.Proofs.Run.Saved
import Mathlib.Data.List.Chain

/-!
# The order of entries over many runs

A round is a run and the write of its outcome.  In a chain of rounds each one
finds the database file that the one before left; sources and settings may have
changed in any way.  So the database that a round loads is that of the outcome
before (`Round.Succeeds.earlier_eq`), and the order of its entries is known:
identifiers that are there again come first, as they stood, and the new ones
follow in the order of their first records (`Round.Succeeds.keepsOrder`).

A round builds its database in steps (`Round.steps`): the records are offered, the
entries get the order of the earlier database, and at last display texts if the
settings ask for them.  The index that is kept along, and made anew with the order,
finds every entry (`Round.Succeeds.exists_built`).
-/

namespace FlashStrings

/-- A run of a project over a tree, and the write of its outcome. -/
structure Round where
  project : Project
  before : FileTree
  /-- The database of an earlier round. -/
  earlier : Database
  outcome : Outcome
  after : FileTree

namespace Round

/-- The run and the write succeed. -/
structure Succeeds (r : Round) : Prop where
  /-- The database of an earlier round is loaded. -/
  loads : Database.load r.before r.project.databasePath = .ok r.earlier
  runs : r.project.run r.before = .ok r.outcome
  writes : ∃ summary, r.project.write r.before r.outcome = (r.after, .ok summary)

/-- A round finds the database file that another one left.  All else may differ. -/
def Precedes (r r' : Round) : Prop :=
  r'.before.read? r'.project.databasePath = r.after.read? r.project.databasePath

/-- The records of a round: those of its sources in canonical order, then those of
the settings. -/
def records (r : Round) : List Record :=
  ((r.project.sources.files r.before).flatMap fun file =>
    sourceRecords (r.project.scanFile r.before (r.project.known r.earlier) file)) ++
      r.project.configRecords

/-- The identifiers of the entries after a round, in their order. -/
def order (r : Round) : List String := identifiers r.outcome.database.entries

/-- The steps in which a round builds its database. -/
def steps (r : Round) : List BuildStep :=
  r.records.map .offer ++ .orderLike (.ofDatabase r.earlier) ::
    if r.project.config.autoValues then [.fillAutoValues] else []

/-- An indexed database finds the entries of the outcome, each under its identifier. -/
def Finds (r : Round) (db : IndexedDatabase) : Prop :=
  ∀ identifier e, db.lookup? identifier = some e ↔
    e ∈ r.outcome.database.entries ∧ e.identifier = identifier

/-- The entries after a round are those that its records name, each once, and an
index finds them. -/
structure HasNamed (r : Round) : Prop where
  distinct : r.order.Nodup
  named : ∀ identifier, identifier ∈ r.order ↔
    ∃ x ∈ r.records, x.kind ≠ .autoInit ∧ x.identifier = identifier
  /-- The steps lead to the database of the outcome, but for what is known about files,
  and the index that they keep finds the entries. -/
  built : ∃ db, r.steps.foldlM IndexedDatabase.perform
      (.withFingerprint {} r.project.fingerprint) = some db ∧
    r.outcome.database = { db.database with files := r.outcome.database.files } ∧ r.Finds db
  /-- So does the index that loading makes. -/
  found : r.Finds (.ofDatabase r.outcome.database)

/-- A round keeps the order of the one before. -/
structure KeepsOrder (r r' : Round) : Prop where
  /-- Identifiers of both rounds stand in the same order. -/
  kept : r'.order.filter (· ∈ r.order) = r.order.filter (· ∈ r'.order)
  /-- New identifiers follow, in the order of their first records. -/
  new : r'.order = r'.order.filter (· ∈ r.order) ++ (namedBy r'.records).filter (· ∉ r.order)

variable {r r' : Round}

theorem Succeeds.outcome_eq (h : r.Succeeds) :
    r.outcome = r.project.runAfter r.before r.earlier := by
  have hrun := h.runs
  rw [Project.run, h.loads] at hrun
  exact (Except.ok.inj hrun).symm

/-- The database that a round loads is the one that the round before saved. -/
theorem Succeeds.earlier_eq (h : r.Succeeds) (h' : r'.Succeeds) (hr : r.Precedes r') :
    r'.earlier = r.outcome.database := by
  obtain ⟨_, hwrite⟩ := h.writes
  exact Database.load_of_read?_eq_some (hr.trans (Project.read?_write hwrite).2) h'.loads

theorem scanRecords_append (r : Round) :
    scanRecords (r.project.scans r.before r.earlier) ++ r.project.configRecords = r.records := by
  rw [scanRecords, Project.scans, List.flatMap_map, records]

/-- What was gathered has the identifiers that the records name. -/
theorem identifiers_gathered (r : Round) :
    identifiers (r.project.gather (r.project.scans r.before r.earlier)).1.entries =
      namedBy r.records := by
  rw [Project.identifiers_gather, scanRecords_append]

theorem Succeeds.order_eq (h : r.Succeeds) :
    r.order = identifiers
      ((r.project.gather (r.project.scans r.before r.earlier)).1.orderLike r.earlier).entries := by
  rw [order, h.outcome_eq, Project.identifiers_runAfter]

theorem Succeeds.distinct (h : r.Succeeds) : r.order.Nodup := by
  rw [order, h.outcome_eq]
  exact Project.nodup_identifiers_runAfter ..

/-- An index of the entries of the outcome finds them. -/
theorem Succeeds.finds (h : r.Succeeds) {db : Database}
    (hentries : db.entries = r.outcome.database.entries) : r.Finds (.ofDatabase db) := by
  intro identifier e
  rw [IndexedDatabase.lookup?_ofDatabase, Database.lookup?, hentries]
  constructor
  · exact fun he => ⟨mem_of_entryOf? he, identifier_of_entryOf? he⟩
  · rintro ⟨he, rfl⟩
    exact (entryOf?_eq_some_iff_mem h.distinct).2 he

/-- Merging makes the database that the first of the steps make, but for what is known
about files. -/
theorem exists_merge_eq (r : Round) : ∃ files,
    (r.project.merge r.earlier (r.project.scans r.before r.earlier)).1 =
      { ((r.records.map BuildStep.offer).foldl Database.after
          { fingerprint := r.project.fingerprint }).after (.orderLike (.ofDatabase r.earlier))
        with files } := by
  obtain ⟨files, hgather, -⟩ := r.project.gather_eq (r.project.scans r.before r.earlier)
  have horder (db : Database) :
      db.orderLike r.earlier = db.after (.orderLike (.ofDatabase r.earlier)) :=
    congrArg (·.database) (IndexedDatabase.orderLike_ofDatabase db r.earlier).symm
  rw [Project.mergeRecords, r.scanRecords_append, ← Database.foldl_after_offer] at hgather
  rw [Project.merge_eq, hgather, horder]
  exact ⟨files, rfl⟩

/-- The steps make the database of the outcome, but for what is known about files. -/
theorem Succeeds.database_eq (h : r.Succeeds) :
    r.outcome.database = { r.steps.foldl Database.after { fingerprint := r.project.fingerprint }
      with files := r.outcome.database.files } := by
  obtain ⟨files, hmerge⟩ := r.exists_merge_eq
  have hdatabase : r.outcome.database = if r.project.config.autoValues
      then (r.project.merge r.earlier (r.project.scans r.before r.earlier)).1.fillAutoValues
      else (r.project.merge r.earlier (r.project.scans r.before r.earlier)).1 := by
    rw [h.outcome_eq]
    rfl
  rw [hdatabase, hmerge, steps, List.foldl_append, List.foldl_cons]
  split <;> rfl

/-- The index that the steps keep finds the entries of the outcome. -/
theorem Succeeds.exists_built (h : r.Succeeds) : ∃ db, r.steps.foldlM IndexedDatabase.perform
      (.withFingerprint {} r.project.fingerprint) = some db ∧
    r.outcome.database = { db.database with files := r.outcome.database.files } ∧ r.Finds db :=
  ⟨_, IndexedDatabase.foldlM_perform { fingerprint := r.project.fingerprint } r.steps,
    h.database_eq, h.finds (congrArg Database.entries h.database_eq).symm⟩

theorem Succeeds.hasNamed (h : r.Succeeds) : r.HasNamed := by
  refine ⟨h.distinct, fun identifier => ?_, h.exists_built, h.finds rfl⟩
  have hperm := (Database.perm_orderLike
    (r.project.gather (r.project.scans r.before r.earlier)).1 r.earlier).map (·.identifier)
  rw [← mem_namedBy, ← r.identifiers_gathered, h.order_eq]
  exact hperm.mem_iff

theorem Succeeds.keepsOrder (h : r.Succeeds) (h' : r'.Succeeds) (hr : r.Precedes r') :
    r.KeepsOrder r' := by
  have hgathered := r'.identifiers_gathered
  obtain ⟨_, -, hcounts, -⟩ :=
    r'.project.counts_gather (r'.project.scans r'.before r'.earlier)
  have horder : r'.order = r.order.filter (· ∈ namedBy r'.records) ++
      (namedBy r'.records).filter (· ∉ r.order) := by
    rw [h'.order_eq, h.earlier_eq h' hr,
      Database.identifiers_orderLike (h.earlier_eq h' hr ▸ hcounts.distinct) h.hasNamed.distinct,
      ← h.earlier_eq h' hr, hgathered, h.earlier_eq h' hr]
    rfl
  have hmem : ∀ identifier, identifier ∈ namedBy r'.records ↔ identifier ∈ r'.order := fun _ =>
    mem_namedBy.trans (h'.hasNamed.named _).symm
  have hkept : r'.order.filter (· ∈ r.order) = r.order.filter (· ∈ r'.order) := by
    have hold : (r.order.filter (· ∈ namedBy r'.records)).filter (· ∈ r.order) =
        r.order.filter (· ∈ namedBy r'.records) :=
      List.filter_eq_self.2 fun a ha => decide_eq_true (List.mem_filter.1 ha).1
    have hnew : ((namedBy r'.records).filter (· ∉ r.order)).filter (· ∈ r.order) = [] :=
      List.filter_eq_nil_iff.2 fun a ha => by simpa using (List.mem_filter.1 ha).2
    rw [horder, List.filter_append, hold, hnew, List.append_nil, ← horder]
    simp only [hmem]
  refine ⟨hkept, ?_⟩
  rw [hkept]
  simpa only [hmem] using horder

/-- In a chain of rounds every outcome has the entries that the records of its
round name, and every round keeps the order of the one before. -/
theorem keepsOrder_of_isChain {rounds : List Round} (hsucceeds : ∀ r ∈ rounds, r.Succeeds)
    (hchain : rounds.IsChain Precedes) :
    (∀ r ∈ rounds, r.HasNamed) ∧ rounds.IsChain KeepsOrder ∧
      ∀ db earlier : Database, (db.orderLike earlier).entries.Perm db.entries := by
  refine ⟨fun r hr => (hsucceeds r hr).hasNamed, ?_, Database.perm_orderLike⟩
  refine hchain.imp_of_mem_imp fun r r' hmem hmem' hr => ?_
  exact (hsucceeds r hmem).keepsOrder (hsucceeds r' hmem') hr

/-! ### A project with one source, edited between two rounds -/

/-- The round of a project over a tree, after an earlier database. -/
def following (p : Project) (t : FileTree) (earlier : Database) : Round :=
  ⟨p, t, earlier, p.runAfter t earlier, (p.write t (p.runAfter t earlier)).1⟩

theorem succeeds_following {p : Project} {t : FileTree} {earlier : Database}
    (hload : Database.load t p.databasePath = .ok earlier)
    (hok : (p.write t (p.runAfter t earlier)).2.isOk = true) :
    (following p t earlier).Succeeds := by
  refine ⟨hload, by rw [following, Project.run, hload]; rfl, ?_⟩
  rw [following]
  cases hwrite : p.write t (p.runAfter t earlier) with
  | mk t' result =>
    rw [hwrite] at hok
    cases result with
    | error _ => cases hok
    | ok summary => exact ⟨summary, rfl⟩

/-- The first round. -/
def first : Round := following Project.forcedSample Project.sampleTree {}

/-- The settings of the second round have a text of their own. -/
def editedSample : Project :=
  let strings := .ofList [("Also", { fallback := some "Also" })]
  { Project.forcedSample with config := { Project.forcedSample.config with strings } }

/-- The edited source has a new identifier before the old one. -/
def editedSource : Bytes := Utf8.encode "SPGM(New, \"New\")\nSPGM(Hi, \"Hi\")\n"

/-- The tree with the edited source and no outputs. -/
def editedTree : FileTree where
  nodes := .ofList [(["p"], .directory), (["p", ".spgm"], .directory), (["p", "src"], .directory),
    (["p", "src", "a.c"], .file editedSource)]

/-- The second round. -/
def second : Round :=
  following editedSample
    (editedTree.put ["p", ".spgm", "database.json"]
      (.file (Utf8.encode first.outcome.database.toText)))
    first.outcome.database

theorem succeeds_first : first.Succeeds := by
  have hnone : Project.sampleTree.has Project.forcedSample.databasePath = false := by decide +kernel
  exact succeeds_following (Database.load_of_has hnone) (by decide +kernel)

theorem read?_second : second.before.read? second.project.databasePath =
    some (Utf8.encode first.outcome.database.toText) := by
  have hplace : editedTree.writable? editedSample.databasePath =
      some ["p", ".spgm", "database.json"] := by decide +kernel
  exact FileTree.read?_put hplace

theorem succeeds_second : second.Succeeds := by
  have hfits : first.outcome.database.fits = true := by decide +kernel
  refine succeeds_following ?_ (by decide +kernel)
  exact (Database.load_of_read? read?_second).trans (if_pos hfits)

theorem keepsOrder_first_second :
    (∀ r ∈ [first, second], r.HasNamed) ∧ [first, second].IsChain KeepsOrder ∧
      first.order = ["Hi"] ∧ namedBy second.records = ["New", "Hi", "Also"] ∧
      second.order = ["Hi", "New", "Also"] := by
  have hrounds : ∀ r ∈ [first, second], r.Succeeds := by
    simp [succeeds_first, succeeds_second]
  obtain ⟨_, hwrite⟩ := succeeds_first.writes
  have hprecedes : first.Precedes second :=
    read?_second.trans (Project.read?_write hwrite).2.symm
  obtain ⟨hnamed, hkeeps, -⟩ := keepsOrder_of_isChain hrounds (List.isChain_pair.2 hprecedes)
  exact ⟨hnamed, hkeeps, by decide +kernel⟩

end Round

end FlashStrings
