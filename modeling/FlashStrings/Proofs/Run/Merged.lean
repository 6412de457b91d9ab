import FlashStrings.IndexedDatabase
import FlashStrings.Proofs.Run.Scans

/-!
# What a run merges

A run gathers the records of its sources and of its settings (`Project.gather`).  What
it keeps of files aside, it takes them one after the other (`Project.gather_eq`).  Then
it gives the entries the order of an earlier database and perhaps display texts.
The order is a permutation (`Database.perm_orderLike`), and display texts change
no places, so the entries of the outcome are those that were gathered, up to
display texts (`Project.entry_of_mem_database`).

The entries count the records that were taken, and without a conflict these are
all records (`Project.counts_gather`).
-/

namespace FlashStrings

/-! ## Order -/

theorem map_snd_known (place : Entry → Option Nat) (es : List Entry) :
    ((es.map fun e => (place e, e)).filterMap fun (i, e) => i.map (·, e)).map (·.2) =
      es.filter fun e => (place e).isSome := by
  induction es with
  | nil => rfl
  | cons e es ih => cases h : place e <;> simp [h] at ih ⊢ <;> exact ih

theorem filterMap_new (place : Entry → Option Nat) (es : List Entry) :
    ((es.map fun e => (place e, e)).filterMap fun (i, e) => if i.isNone then some e else none) =
      es.filter fun e => !(place e).isSome := by
  induction es with
  | nil => rfl
  | cons e es ih => cases h : place e <;> simp [h] at ih ⊢ <;> exact ih

/-- Ordering by places neither loses nor doubles entries. -/
theorem perm_orderBy (place : String → Option Nat) (es : List Entry) :
    (orderBy place es).Perm es := by
  simp only [orderBy]
  refine (((List.mergeSort_perm _ _).map _).append_right _).trans ?_
  rw [map_snd_known (fun e => place e.identifier), filterMap_new (fun e => place e.identifier)]
  exact List.filter_append_perm ..

/-- The order of an earlier database neither loses nor doubles entries. -/
theorem Database.perm_orderLike (db earlier : Database) :
    (db.orderLike earlier).entries.Perm db.entries :=
  perm_orderBy (position? · earlier.entries) db.entries

/-! ## Display texts -/

namespace Entry

/-- The entry with a display text if it needs one. -/
def filled (e : Entry) : Entry := e.fillAutoValue?.getD e

/-- The entries differ at most in their texts. -/
structure SamePlaces (e e' : Entry) : Prop where
  /-- The identifier is the same. -/
  identifier : e'.identifier = e.identifier
  /-- The number of uses is the same. -/
  usageCount : e'.usageCount = e.usageCount
  /-- The places of references are the same. -/
  references : e'.references = e.references
  /-- The places that gave a value are the same. -/
  definitions : e'.definitions = e.definitions

theorem SamePlaces.refl (e : Entry) : SamePlaces e e := ⟨rfl, rfl, rfl, rfl⟩

/-- Filling changes nothing, or it gives an entry without a fallback its display text, at
the place of its first use. -/
theorem filled_cases (e : Entry) : e.filled = e ∨ ∃ location,
    e.fallback = none ∧ e.references.head? = some location ∧
      e.filled = refreshHash { e with fallback := some ⟨displayText e.identifier, location⟩ } := by
  rw [filled, fillAutoValue?]
  split
  · exact .inl rfl
  · next hunresolved =>
    cases hplace : e.references.head? with
    | none => exact .inl rfl
    | some location =>
      simp only [Bool.or_eq_true, not_or, isResolved, Option.isSome_iff_ne_none, ne_eq,
        Decidable.not_not] at hunresolved
      exact .inr ⟨location, hunresolved.1, rfl, rfl⟩

theorem samePlaces_filled (e : Entry) : SamePlaces e e.filled := by
  rcases e.filled_cases with hsame | ⟨location, -, -, hfilled⟩
  · rw [hsame]
    exact .refl e
  · rw [hfilled]
    exact ⟨rfl, rfl, rfl, rfl⟩

end Entry

/-! ## Records -/

namespace Database

theorem Counts.withFiles {db : Database} {rs : List Record} (h : db.Counts rs)
    (files : TextMap FileRecords) : Counts { db with files } rs := ⟨h.distinct, h.lookup, h.counts⟩

end Database

namespace Project

variable {p : Project} {t : FileTree} {earlier : Database}

/-- The database of all records in their order, and the issues that came up. -/
def gather (p : Project) (scans : List (Except Issue FileScan)) : Database × List Issue :=
  let state := scans.foldl takeScan ({ fingerprint := p.fingerprint }, [])
  let (db, conflicts) := state.1.applyAll p.configRecords
  (db, state.2 ++ conflicts.map .conflict)

/-- All records, one after the other, without what is known about files. -/
def mergeRecords (p : Project) (scans : List (Except Issue FileScan)) :
    Database × List Conflict :=
  Database.applyAll { fingerprint := p.fingerprint } (scanRecords scans ++ p.configRecords)

theorem merge_eq (p : Project) (earlier : Database) (scans : List (Except Issue FileScan)) :
    p.merge earlier scans = ((p.gather scans).1.orderLike earlier, (p.gather scans).2) := rfl

/-- A run takes all records one after the other.  The issues are those that the sources give
by themselves, and the conflicts. -/
theorem gather_eq (p : Project) (scans : List (Except Issue FileScan)) :
    ∃ files, (p.gather scans).1 = { (p.mergeRecords scans).1 with files } ∧
      ∀ i, i ∈ (p.gather scans).2 ↔ (∃ scanned ∈ scans, i ∈ sourceIssues scanned) ∨
        ∃ c ∈ (p.mergeRecords scans).2, i = .conflict c := by
  obtain ⟨files, hdb, hissues⟩ := foldl_takeScan ({ fingerprint := p.fingerprint }, []) scans
  rw [mergeRecords, Database.applyAll_append]
  simp only [gather, hdb, Database.applyAll_withFiles]
  refine ⟨files, rfl, fun i => ?_⟩
  simp only [List.mem_append, hissues, List.mem_map]
  grind

theorem conflict_mem_gather {scans : List (Except Issue FileScan)} {c : Conflict}
    (h : c ∈ (p.mergeRecords scans).2) : .conflict c ∈ (p.gather scans).2 := by
  obtain ⟨-, -, hissues⟩ := p.gather_eq scans
  exact (hissues _).2 (.inr ⟨c, h, rfl⟩)

/-- The entries count the records that were taken; without a conflict these are
all records. -/
theorem counts_gather (p : Project) (scans : List (Except Issue FileScan)) :
    ∃ taken, taken.Sublist (scanRecords scans ++ p.configRecords) ∧
      (p.gather scans).1.Counts taken ∧
      ((∀ c, .conflict c ∉ (p.gather scans).2) → taken = scanRecords scans ++ p.configRecords) := by
  obtain ⟨files, hdb, -⟩ := p.gather_eq scans
  obtain ⟨taken, hsub, hcounts, hall⟩ := (Database.counts_empty p.fingerprint).applyAll
    (scanRecords scans ++ p.configRecords)
  refine ⟨taken, hsub, hdb ▸ hcounts.withFiles files, fun hnone => hall ?_⟩
  exact List.eq_nil_iff_forall_not_mem.2 fun c hc => hnone c (conflict_mem_gather hc)

/-! ## The outcome -/

/-- What a run makes of an entry that was gathered. -/
def finish (p : Project) (e : Entry) : Entry := if p.config.autoValues then e.filled else e

theorem samePlaces_finish (p : Project) (e : Entry) : Entry.SamePlaces e (p.finish e) := by
  rw [finish]
  split
  · exact e.samePlaces_filled
  · exact .refl e

theorem entries_runAfter (p : Project) (t : FileTree) (earlier : Database) :
    (p.runAfter t earlier).database.entries =
      ((p.gather (p.scans t earlier)).1.orderLike earlier).entries.map p.finish := by
  simp only [runAfter, merge_eq]
  split
  · next h =>
    have hfinish : p.finish = Entry.filled := funext fun e => if_pos h
    rw [hfinish]
    rfl
  · next h =>
    have hfinish : p.finish = id := funext fun e => if_neg h
    rw [hfinish, List.map_id]
    rfl

theorem autoInit_runAfter (p : Project) (t : FileTree) (earlier : Database) :
    (p.runAfter t earlier).database.autoInit = (p.gather (p.scans t earlier)).1.autoInit := by
  simp only [runAfter, merge_eq]
  split <;> rfl

/-- An entry of the outcome is one that was gathered, perhaps with a display text. -/
theorem entry_of_mem_database {e : Entry} (h : e ∈ (p.runAfter t earlier).database.entries) :
    ∃ e₀ ∈ (p.gather (p.scans t earlier)).1.entries, e = p.finish e₀ := by
  rw [entries_runAfter] at h
  obtain ⟨e₀, he₀, rfl⟩ := List.mem_map.1 h
  exact ⟨e₀, (Database.perm_orderLike ..).mem_iff.1 he₀, rfl⟩

theorem finish_mem_database {e : Entry} (h : e ∈ (p.gather (p.scans t earlier)).1.entries) :
    p.finish e ∈ (p.runAfter t earlier).database.entries := by
  rw [entries_runAfter]
  exact List.mem_map.2 ⟨e, (Database.perm_orderLike ..).mem_iff.2 h, rfl⟩

/-- Display texts change no identifier. -/
theorem identifiers_runAfter (p : Project) (t : FileTree) (earlier : Database) :
    identifiers (p.runAfter t earlier).database.entries =
      identifiers ((p.gather (p.scans t earlier)).1.orderLike earlier).entries := by
  rw [entries_runAfter, identifiers, identifiers, List.map_map]
  exact List.map_congr_left fun e _ => (p.samePlaces_finish e).identifier

/-- No identifier has two entries in the outcome. -/
theorem nodup_identifiers_runAfter (p : Project) (t : FileTree) (earlier : Database) :
    (identifiers (p.runAfter t earlier).database.entries).Nodup := by
  obtain ⟨_, -, hcounts, -⟩ := p.counts_gather (p.scans t earlier)
  rw [identifiers_runAfter]
  exact ((Database.perm_orderLike ..).map _).nodup_iff.2 hcounts.distinct

end Project

end FlashStrings
