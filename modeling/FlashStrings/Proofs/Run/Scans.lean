import FlashStrings.Proofs.Merge.Sequence
import FlashStrings.Run

/-!
# What a run takes from its sources

The records that the database keeps for a file are those of a scan
(`Project.scan_of_get?_files`).  Scans are taken record by record, and what comes up are
the errors of each source and the conflicts (`Project.foldl_takeScan`).  As the issues hold
every error of every scan (`Project.mem_issues_of_scan`), in a run without errors every
source was read and scanned without an error (`Project.scan_of_no_error`).
-/

namespace FlashStrings

namespace Issue

theorem mem_sort {i : Issue} {issues : List Issue} : i ∈ sort issues ↔ i ∈ issues :=
  (List.mergeSort_perm issues le).mem_iff

theorem anyError_eq_false_iff {issues : List Issue} :
    anyError issues = false ↔ ∀ i ∈ issues, i.severity ≠ .error := by
  simp [anyError]

end Issue

/-! ## Records -/

/-- The records that a source gives. -/
def sourceRecords : Except Issue FileScan → List Record
  | .ok s => s.records.records
  | .error _ => []

/-- The records that the sources give. -/
def scanRecords (scans : List (Except Issue FileScan)) : List Record := scans.flatMap sourceRecords

theorem mem_scanRecords_iff {scans : List (Except Issue FileScan)} {r : Record} :
    r ∈ scanRecords scans ↔ ∃ s, .ok s ∈ scans ∧ r ∈ s.records.records := by
  rw [scanRecords, List.mem_flatMap]
  constructor
  · rintro ⟨scanned, hscanned, hr⟩
    cases scanned with
    | error i => cases hr
    | ok s => exact ⟨s, hscanned, hr⟩
  · exact fun ⟨s, hs, hr⟩ => ⟨.ok s, hs, hr⟩

namespace Project

/-- The records of an earlier database that a run may use. -/
def known (p : Project) (earlier : Database) : TextMap FileRecords :=
  if p.canReuse earlier then earlier.files else ∅

/-- What the sources give to a run after an earlier database. -/
def scans (p : Project) (t : FileTree) (earlier : Database) : List (Except Issue FileScan) :=
  (p.sources.files t).map (p.scanFile t (p.known earlier))

/-! ## One source -/

section

variable {p : Project} {t : FileTree} {known : TextMap FileRecords} {file : String}

theorem scanFile_of_unreadable (h : t.read? (p.root.join file) = none) :
    p.scanFile t known file = .error (.ioError file "cannot read file") := by
  unfold scanFile
  rw [h]

theorem scanFile_of_known {content : Bytes} {f : FileRecords}
    (h : t.read? (p.root.join file) = some content)
    (hf : (known.get? file).filter (·.hash = sha256Hex content) = some f) :
    p.scanFile t known file = .ok { file, records := f, isCached := true } := by
  unfold scanFile
  rw [h]
  simp only [hf]

theorem scanFile_of_unknown {content : Bytes} (h : t.read? (p.root.join file) = some content)
    (hf : (known.get? file).filter (·.hash = sha256Hex content) = none) :
    p.scanFile t known file = .ok {
      file
      records := ⟨sha256Hex content, recordsOf (scan ⟨file, p.defines⟩ (Utf8.decodeLossy content))⟩
      errors := errorsOf (scan ⟨file, p.defines⟩ (Utf8.decodeLossy content)) } := by
  unfold scanFile
  rw [h]
  simp only [hf]

/-- A scan depends on the tree through the content of the source alone. -/
theorem scanFile_congr {t' : FileTree}
    (h : t'.read? (p.root.join file) = t.read? (p.root.join file)) :
    p.scanFile t' known file = p.scanFile t known file := by
  unfold scanFile
  rw [h]

/-- What a source that can be read gives: its records from the database, or those of a new
scan. -/
inductive GivesScan (p : Project) (known : TextMap FileRecords) (file : String)
    (content : Bytes) : FileScan → Prop where
  | known {f : FileRecords} : (known.get? file).filter (·.hash = sha256Hex content) = some f →
    GivesScan p known file content { file, records := f, isCached := true }
  | new : (known.get? file).filter (·.hash = sha256Hex content) = none →
    GivesScan p known file content {
      file
      records := ⟨sha256Hex content, recordsOf (scan ⟨file, p.defines⟩ (Utf8.decodeLossy content))⟩
      errors := errorsOf (scan ⟨file, p.defines⟩ (Utf8.decodeLossy content)) }

/-- A source cannot be read, or it gives a scan. -/
theorem scanFile_cases (p : Project) (t : FileTree) (known : TextMap FileRecords) (file : String) :
    p.scanFile t known file = .error (.ioError file "cannot read file") ∨
      ∃ content s, t.read? (p.root.join file) = some content ∧
        p.GivesScan known file content s ∧ p.scanFile t known file = .ok s := by
  cases hread : t.read? (p.root.join file) with
  | none => exact .inl (scanFile_of_unreadable hread)
  | some content =>
    refine .inr ⟨content, ?_⟩
    cases hf : (known.get? file).filter (·.hash = sha256Hex content) with
    | none => exact ⟨_, rfl, .new hf, scanFile_of_unknown hread hf⟩
    | some f => exact ⟨_, rfl, .known hf, scanFile_of_known hread hf⟩

/-- The only error of a source that gives no scan is that it cannot be read. -/
theorem eq_ioError_of_scanFile {i : Issue} (h : p.scanFile t known file = .error i) :
    i = .ioError file "cannot read file" := by
  rcases scanFile_cases p t known file with herror | ⟨_, _, -, -, hok⟩
  · exact Except.error.inj (h.symm.trans herror)
  · cases h.symm.trans hok

theorem givesScan_of_scanFile {s : FileScan} (h : p.scanFile t known file = .ok s) :
    ∃ content, t.read? (p.root.join file) = some content ∧ p.GivesScan known file content s := by
  rcases scanFile_cases p t known file with herror | ⟨content, s', hread, hgives, hok⟩
  · cases h.symm.trans herror
  · obtain rfl := Except.ok.inj (h.symm.trans hok)
    exact ⟨content, hread, hgives⟩

/-- A scan is new, or its records are the known ones. -/
theorem scanFile_eq_ok {s : FileScan} (h : p.scanFile t known file = .ok s) :
    p.scanFile t ∅ file = .ok s ∨ known.get? s.file = some s.records := by
  obtain ⟨content, hread, hgives⟩ := givesScan_of_scanFile h
  cases hgives with
  | new hf => exact .inl (scanFile_of_unknown hread rfl)
  | known hf => exact .inr (Option.filter_eq_some_iff.1 hf).1

/-- The records of a new scan are found in the content of the source. -/
theorem exists_of_mem_records {s : FileScan} (h : p.scanFile t ∅ file = .ok s) {r : Record}
    (hr : r ∈ s.records.records) : s.file = file ∧
      ∃ content, t.read? (p.root.join file) = some content ∧
        r ∈ recordsOf (scan ⟨file, p.defines⟩ (Utf8.decodeLossy content)) := by
  obtain ⟨content, hread, hgives⟩ := givesScan_of_scanFile h
  cases hgives with
  | new => exact ⟨rfl, content, hread, hr⟩
  | known hf => cases hf

/-- The errors of a source are those of a new scan of its content. -/
theorem exists_of_mem_errors {s : FileScan} (h : p.scanFile t known file = .ok s) {e : ParseError}
    (he : e ∈ s.errors) : ∃ content, t.read? (p.root.join file) = some content ∧
      e ∈ errorsOf (scan ⟨file, p.defines⟩ (Utf8.decodeLossy content)) := by
  obtain ⟨content, hread, hgives⟩ := givesScan_of_scanFile h
  cases hgives with
  | new => exact ⟨content, hread, he⟩
  | known => cases he

end

/-! ## Files -/

theorem fingerprint_foldl_takeScan (scans : List (Except Issue FileScan))
    (state : Database × List Issue) :
    (scans.foldl takeScan state).1.fingerprint = state.1.fingerprint := by
  induction scans generalizing state with
  | nil => rfl
  | cons scanned scans ih =>
    rw [List.foldl_cons, ih]
    cases scanned with
    | error i => rfl
    | ok s => exact Database.fingerprint_applyAll ..

theorem scan_of_get?_foldl_takeScan {scans : List (Except Issue FileScan)}
    {state : Database × List Issue} {file : String} {f : FileRecords}
    (h : (scans.foldl takeScan state).1.files.get? file = some f) :
    state.1.files.get? file = some f ∨ ∃ s, .ok s ∈ scans ∧ s.file = file ∧ s.records = f := by
  induction scans generalizing state with
  | nil => exact .inl h
  | cons scanned scans ih =>
    rcases ih h with h | ⟨s, hs, hfile, hf⟩
    · cases scanned with
      | error i => exact .inl h
      | ok s =>
        simp only [takeScan, SortedMap.get?_insert, Database.files_applyAll] at h
        split at h
        · next heq =>
          exact .inr ⟨s, List.mem_cons_self, heq.symm, Option.some.inj h⟩
        · exact .inl h
    · exact .inr ⟨s, List.mem_cons_of_mem _ hs, hfile, hf⟩

theorem fingerprint_runAfter (p : Project) (t : FileTree) (earlier : Database) :
    (p.runAfter t earlier).database.fingerprint = p.fingerprint := by
  have hmerge : ∀ scans, (p.merge earlier scans).1.fingerprint = p.fingerprint := fun scans => by
    simp only [merge, Database.orderLike, Database.fingerprint_applyAll,
      fingerprint_foldl_takeScan]
  simp only [runAfter]
  split
  · exact hmerge _
  · exact hmerge _

/-- The records that a run keeps for a file are those of a scan. -/
theorem scan_of_get?_files {p : Project} {t : FileTree} {earlier : Database} {file : String}
    {f : FileRecords} (h : (p.runAfter t earlier).database.files.get? file = some f) :
    ∃ s, .ok s ∈ p.scans t earlier ∧ s.file = file ∧ s.records = f := by
  have hmerge : (p.merge earlier (p.scans t earlier)).1.files.get? file = some f := by
    simp only [runAfter] at h
    split at h <;> exact h
  simp only [merge, Database.orderLike, Database.files_applyAll] at hmerge
  rcases scan_of_get?_foldl_takeScan hmerge with h | h
  · cases h
  · exact h

/-! ## Issues -/

/-- The issues that a source gives by itself. -/
def sourceIssues : Except Issue FileScan → List Issue
  | .ok s => s.errors.map .parseError
  | .error i => [i]

/-- A scan is taken record by record.  New issues are those that the source gives by
itself, and the conflicts. -/
theorem takeScan_eq (state : Database × List Issue) (scanned : Except Issue FileScan) :
    ∃ files, (takeScan state scanned).1 =
        { (state.1.applyAll (sourceRecords scanned)).1 with files } ∧
      ∀ i, i ∈ (takeScan state scanned).2 ↔ i ∈ state.2 ∨ i ∈ sourceIssues scanned ∨
        ∃ c ∈ (state.1.applyAll (sourceRecords scanned)).2, i = .conflict c := by
  cases scanned with
  | error i =>
    refine ⟨state.1.files, rfl, fun j => ?_⟩
    simp [takeScan, sourceIssues, sourceRecords, Database.applyAll]
  | ok s =>
    refine ⟨_, rfl, fun j => ?_⟩
    simp only [takeScan, sourceIssues, sourceRecords, List.mem_append, List.mem_map, or_assoc,
      eq_comm (a := j)]

theorem foldl_takeScan (state : Database × List Issue) (scans : List (Except Issue FileScan)) :
    ∃ files, (scans.foldl takeScan state).1 =
        { (state.1.applyAll (scanRecords scans)).1 with files } ∧
      ∀ i, i ∈ (scans.foldl takeScan state).2 ↔ i ∈ state.2 ∨
        (∃ scanned ∈ scans, i ∈ sourceIssues scanned) ∨
        ∃ c ∈ (state.1.applyAll (scanRecords scans)).2, i = .conflict c := by
  induction scans generalizing state with
  | nil => exact ⟨state.1.files, rfl, by simp [scanRecords, Database.applyAll]⟩
  | cons scanned scans ih =>
    obtain ⟨_, hfirst, hnew⟩ := takeScan_eq state scanned
    obtain ⟨files, hdb, hissues⟩ := ih (takeScan state scanned)
    simp only [hfirst, hnew, Database.applyAll_withFiles] at hdb hissues
    rw [scanRecords, List.flatMap_cons, ← scanRecords, Database.applyAll_append]
    exact ⟨files, hdb, fun i => (hissues i).trans (by grind)⟩

/-- The issues of a run hold those that each source gives by itself. -/
theorem mem_issues_of_scan {p : Project} {t : FileTree} {earlier : Database}
    {scanned : Except Issue FileScan} (h : scanned ∈ p.scans t earlier) {i : Issue}
    (hi : i ∈ sourceIssues scanned) : i ∈ (p.runAfter t earlier).issues := by
  obtain ⟨-, -, hissues⟩ :=
    foldl_takeScan ({ fingerprint := p.fingerprint }, []) (p.scans t earlier)
  refine Issue.mem_sort.2 (List.mem_append_left _ (List.mem_append_left _ ?_))
  exact List.mem_append_left _ ((hissues i).2 (.inr (.inl ⟨scanned, h, hi⟩)))

/-- In a run without errors every source is read and scanned without an error. -/
theorem scan_of_no_error {p : Project} {t : FileTree} {earlier : Database}
    (h : Issue.anyError (p.runAfter t earlier).issues = false) {scanned : Except Issue FileScan}
    (hs : scanned ∈ p.scans t earlier) : ∃ s, scanned = .ok s ∧ s.errors = [] := by
  have hnone := Issue.anyError_eq_false_iff.1 h
  cases scanned with
  | error i =>
    obtain ⟨file, -, hfile⟩ := List.mem_map.1 hs
    obtain rfl := eq_ioError_of_scanFile hfile
    exact absurd rfl (hnone _ (mem_issues_of_scan hs (List.mem_singleton.2 rfl)))
  | ok s =>
    refine ⟨s, rfl, ?_⟩
    cases herrors : s.errors with
    | nil => rfl
    | cons e errors =>
      have hmem : Issue.parseError e ∈ sourceIssues (.ok s) := by simp [sourceIssues, herrors]
      exact absurd rfl (hnone _ (mem_issues_of_scan hs hmem))

end Project

end FlashStrings
