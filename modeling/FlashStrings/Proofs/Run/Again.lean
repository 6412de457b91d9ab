import FlashStrings.Proofs.Run.Cache
import FlashStrings.Proofs.Run.Order

/-!
# A run after itself

A run without errors leaves a database from which the next run finds the same, if
the sources are the same: the records of the database are those that a scan finds
(`Project.fresh_scans_again`), and the order of the database is kept
(`Database.orderLike_of_identifiers`).  So the issues, the texts and the database of
the next run are those of the first (`Project.runAfter_again`).
-/

namespace FlashStrings

/-! ## Scans -/

namespace Project

variable {p : Project} {t t' : FileTree} {earlier : Database} {known : TextMap FileRecords}
  {file : String} {s : FileScan}

/-- A scan keeps the hash of the content beside the records. -/
theorem hash_of_scanFile (h : p.scanFile t known file = .ok s) : s.file = file ∧
    ∃ content, t.read? (p.root.join file) = some content ∧ s.records.hash = sha256Hex content := by
  obtain ⟨content, hread, hgives⟩ := givesScan_of_scanFile h
  cases hgives with
  | new => exact ⟨rfl, content, hread, rfl⟩
  | known hf => exact ⟨rfl, content, hread, of_decide_eq_true (Option.filter_eq_some_iff.1 hf).2⟩

theorem get?_files_foldl_takeScan {scans : List (Except Issue FileScan)}
    {state : Database × List Issue}
    (hsame : ∀ s', .ok s' ∈ scans → s'.file = s.file → s'.records = s.records)
    (h : .ok s ∈ scans ∨ state.1.files.get? s.file = some s.records) :
    (scans.foldl takeScan state).1.files.get? s.file = some s.records := by
  induction scans generalizing state with
  | nil => exact h.resolve_left List.not_mem_nil
  | cons scanned scans ih =>
    have hrest := fun s' hs' => hsame s' (List.mem_cons_of_mem _ hs')
    refine ih hrest ?_
    cases scanned with
    | error i => exact h.imp_left fun hs => by simpa using hs
    | ok s' =>
      by_cases hfile : s'.file = s.file
      · refine .inr ?_
        rw [← hsame s' List.mem_cons_self hfile, ← hfile]
        simp [takeScan]
      · refine h.imp (fun hs => (List.mem_cons.1 hs).resolve_left fun he => ?_) fun hget => ?_
        · exact hfile (by rw [Except.ok.inj he])
        · simpa [takeScan, Ne.symm hfile, Database.files_applyAll] using hget

/-- The database keeps the records of every source. -/
theorem get?_files_of_scan (h : .ok s ∈ p.scans t earlier) :
    (p.runAfter t earlier).database.files.get? s.file = some s.records := by
  have hsame : ∀ s', .ok s' ∈ p.scans t earlier → s'.file = s.file → s'.records = s.records := by
    intro s' hs' hfile
    obtain ⟨file, -, hscan⟩ := List.mem_map.1 h
    obtain ⟨file', -, hscan'⟩ := List.mem_map.1 hs'
    rw [← (hash_of_scanFile hscan).1, ← hfile, (hash_of_scanFile hscan').1, hscan'] at hscan
    rw [Except.ok.inj hscan]
  have hfold : ((p.scans t earlier).foldl takeScan
      ({ fingerprint := p.fingerprint }, [])).1.files.get? s.file = some s.records :=
    get?_files_foldl_takeScan hsame (.inl h)
  have hmerge : (p.merge earlier (p.scans t earlier)).1.files.get? s.file = some s.records := by
    simp only [merge, Database.orderLike, Database.files_applyAll]
    exact hfold
  simp only [runAfter]
  split <;> exact hmerge

/-- A run after one without errors finds in unchanged sources what that one found. -/
theorem fresh_scans_again (hok : Issue.anyError (p.runAfter t earlier).issues = false)
    (hfiles : p.sources.files t' = p.sources.files t)
    (hread : ∀ file ∈ p.sources.files t,
      t'.read? (p.root.join file) = t.read? (p.root.join file)) :
    (p.scans t' (p.runAfter t earlier).database).map (·.map FileScan.fresh) =
      (p.scans t earlier).map (·.map FileScan.fresh) := by
  rw [scans, scans, hfiles, List.map_map, List.map_map]
  refine List.map_congr_left fun file hfile => ?_
  have hmem : p.scanFile t (p.known earlier) file ∈ p.scans t earlier :=
    List.mem_map.2 ⟨file, hfile, rfl⟩
  obtain ⟨s, hscan, herrors⟩ := scan_of_no_error hok hmem
  obtain ⟨rfl, content, hcontent, hhash⟩ := hash_of_scanFile hscan
  have hcontent' := (hread _ hfile).trans hcontent
  rw [Function.comp_apply, Function.comp_apply, hscan]
  cases hreuse : p.canReuse (p.runAfter t earlier).database with
  | true =>
    -- the records are taken from the database
    have hget : ((p.known (p.runAfter t earlier).database).get? s.file).filter
        (·.hash = sha256Hex content) = some s.records := by
      rw [known, hreuse, if_pos rfl, get?_files_of_scan (hscan ▸ hmem)]
      exact Option.filter_eq_some_iff.2 ⟨rfl, decide_eq_true hhash⟩
    rw [scanFile_of_known hcontent' hget, Except.map, Except.map, FileScan.fresh, FileScan.fresh,
      herrors]
  | false =>
    -- all sources are scanned anew, in this run as in the one before
    have hforce : p.force = true := by
      simpa [canReuse, fingerprint_runAfter] using hreuse
    have hknown : ∀ db, p.known db = ∅ := fun db => by simp [known, canReuse, hforce]
    rw [hknown] at hscan ⊢
    rw [scanFile_of_unknown hcontent rfl] at hscan
    rw [scanFile_of_unknown hcontent' rfl, ← hscan]

/-! ## The run -/

theorem gather_fresh (p : Project) (scans : List (Except Issue FileScan)) :
    p.gather (scans.map (·.map FileScan.fresh)) = p.gather scans := by
  simp only [gather, List.foldl_map, takeScan_fresh]

/-- What a run finds depends on what it merges. -/
theorem runAfter_congr {earlier' : Database}
    (h : p.merge earlier' (p.scans t' earlier') = p.merge earlier (p.scans t earlier)) :
    (p.runAfter t' earlier').issues = (p.runAfter t earlier).issues ∧
      (p.runAfter t' earlier').generated = (p.runAfter t earlier).generated ∧
      (p.runAfter t' earlier').database = (p.runAfter t earlier).database := by
  simp only [scans, known] at h
  simp only [runAfter, h, and_self]

/-- A run after one without errors, over unchanged sources, is that run again. -/
theorem runAfter_again (hok : Issue.anyError (p.runAfter t earlier).issues = false)
    (hfiles : p.sources.files t' = p.sources.files t)
    (hread : ∀ file ∈ p.sources.files t,
      t'.read? (p.root.join file) = t.read? (p.root.join file)) :
    (p.runAfter t' (p.runAfter t earlier).database).issues = (p.runAfter t earlier).issues ∧
      (p.runAfter t' (p.runAfter t earlier).database).generated =
        (p.runAfter t earlier).generated ∧
      (p.runAfter t' (p.runAfter t earlier).database).database =
        (p.runAfter t earlier).database := by
  have hgather : p.gather (p.scans t' (p.runAfter t earlier).database) =
      p.gather (p.scans t earlier) := by
    rw [← gather_fresh, fresh_scans_again hok hfiles hread, gather_fresh]
  obtain ⟨_, -, hcounts, -⟩ := p.counts_gather (p.scans t earlier)
  refine runAfter_congr ?_
  rw [merge_eq, merge_eq, hgather,
    Database.orderLike_of_identifiers hcounts.distinct (identifiers_runAfter p t earlier)]

end Project

end FlashStrings
