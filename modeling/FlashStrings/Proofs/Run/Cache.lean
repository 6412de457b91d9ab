import FlashStrings.Proofs.Digest.Content
import FlashStrings.Proofs.Run.Scans

/-!
# Records of an earlier run

A run may take the records of a file from the database instead of scanning it
again.  Records *can be trusted* when each is what a scan with the string defines
of the project finds, without an error, in a file whose content has the hash that
stands beside them.  A run that trusts its records finds the same as one that
scans all files (`Project.uncached_runAfter`).

Two contents with one hash are equal as long as SHA-256 has no collision among
the messages that the runs make hashes of.  `hashed` is a set of messages that
holds all of these.
-/

namespace FlashStrings

/-! ## Records of scans -/

/-- The records are those of a file without errors that has this hash. -/
def FileRecords.OfScan (hashed : Bytes → Prop) (defines : Defines) (file : String)
    (f : FileRecords) : Prop :=
  ∃ content, hashed content ∧ f.hash = sha256Hex content ∧
    errorsOf (scan ⟨file, defines⟩ (Utf8.decodeLossy content)) = [] ∧
    f.records = recordsOf (scan ⟨file, defines⟩ (Utf8.decodeLossy content))

/-- The scan without a note where it came from. -/
def FileScan.fresh (s : FileScan) : FileScan := { s with isCached := false }

/-- The outcome without what tells cached sources from others. -/
def Outcome.uncached (o : Outcome) : Outcome := { o with filesCached := 0, notes := [] }

namespace Project

/-- The messages that a run makes hashes of, besides the texts of entries. -/
inductive Hashes (p : Project) (t : FileTree) : Bytes → Prop where
  /-- All that affects a scan besides the files. -/
  | settings : p.Hashes t (Utf8.encode p.scanText)
  /-- The content of a source. -/
  | source {file : String} {content : Bytes} :
      file ∈ p.sources.files t → t.read? (p.root.join file) = some content → p.Hashes t content

/-- All earlier records of files come from scans with the defines of the project. -/
def CanTrust (p : Project) (hashed : Bytes → Prop) (known : TextMap FileRecords) : Prop :=
  ∀ file f, known.get? file = some f → f.OfScan hashed p.defines file

variable {p : Project} {t : FileTree} {hashed : Bytes → Prop} {known : TextMap FileRecords}

/-- Records that can be trusted are those that a scan finds. -/
theorem fresh_scanFile (hfree : CollisionFree hashed) (hhashed : ∀ m, p.Hashes t m → hashed m)
    (htrust : p.CanTrust hashed known) {file : String} (hfile : file ∈ p.sources.files t) :
    (p.scanFile t known file).map FileScan.fresh = p.scanFile t ∅ file := by
  cases hread : t.read? (p.root.join file) with
  | none => rw [scanFile_of_unreadable hread, scanFile_of_unreadable hread, Except.map]
  | some content =>
    have hcontent : hashed content := hhashed _ (.source hfile hread)
    have hempty : ((∅ : TextMap FileRecords).get? file).filter (·.hash = sha256Hex content) =
        none := rfl
    rw [scanFile_of_unknown hread hempty]
    cases hknown : (known.get? file).filter (·.hash = sha256Hex content) with
    | none => rw [scanFile_of_unknown hread hknown, Except.map, FileScan.fresh]
    | some f =>
      obtain ⟨hget, hhash⟩ := Option.filter_eq_some_iff.1 hknown
      obtain ⟨content', hcontent', hf, herrors, hrecords⟩ := htrust file f hget
      have hsame : content' = content :=
        hfree _ _ hcontent' hcontent (by rw [← hf]; exact of_decide_eq_true hhash)
      subst hsame
      obtain ⟨hash, records⟩ := f
      simp only at hf hrecords
      rw [scanFile_of_known hread hknown, Except.map, FileScan.fresh, herrors, hf, hrecords]

/-- A new scan without errors is a scan of a file without errors. -/
theorem ofScan_of_scanFile (hhashed : ∀ m, p.Hashes t m → hashed m) {file : String}
    (hfile : file ∈ p.sources.files t) {s : FileScan} (h : p.scanFile t ∅ file = .ok s)
    (herrors : s.errors = []) : s.records.OfScan hashed p.defines s.file := by
  obtain ⟨content, hread, hgives⟩ := givesScan_of_scanFile h
  cases hgives with
  | new => exact ⟨content, hhashed _ (.source hfile hread), rfl, herrors, rfl⟩
  | known hf => cases hf

/-! ## Runs that trust the records -/

theorem takeScan_fresh (state : Database × List Issue) (scanned : Except Issue FileScan) :
    takeScan state (scanned.map FileScan.fresh) = takeScan state scanned := by
  cases scanned <;> rfl

theorem merge_fresh (earlier : Database) (scans : List (Except Issue FileScan)) :
    p.merge earlier (scans.map (·.map FileScan.fresh)) = p.merge earlier scans := by
  simp only [merge, List.foldl_map, takeScan_fresh]

/-- A run that trusts earlier records finds the same as one that scans all files. -/
theorem uncached_runAfter (hfree : CollisionFree hashed) (hhashed : ∀ m, p.Hashes t m → hashed m)
    {earlier : Database} (htrust : p.CanTrust hashed (p.known earlier)) :
    (p.runAfter t earlier).uncached =
      (({ p with force := true } : Project).runAfter t earlier).uncached := by
  have hscans : (p.scans t earlier).map (·.map FileScan.fresh) =
      ({ p with force := true } : Project).scans t earlier := by
    rw [scans, scans, List.map_map]
    refine List.map_congr_left fun file hfile => ?_
    exact fresh_scanFile hfree hhashed htrust hfile
  have hmerge : p.merge earlier (p.scans t earlier) =
      p.merge earlier (({ p with force := true } : Project).scans t earlier) := by
    rw [← hscans, merge_fresh]
  simp only [scans, known] at hmerge
  simp only [Outcome.uncached, runAfter, hmerge, List.length_map]
  rfl

end Project

end FlashStrings
