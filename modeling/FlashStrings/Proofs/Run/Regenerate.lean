import FlashStrings.Proofs.FileTree.Replace
import FlashStrings.Proofs.Run.Again
import FlashStrings.Proofs.Run.Saved
import FlashStrings.Proofs.SourceFiles

/-!
# Regenerating

A run and a write that succeed leave a tree over which the next run finds the
same and writes nothing, as long as no output is listed as a source
(`Project.repeats_of_not_scansOutput`).  The generated files are kept out of the
sources by their paths, so none is listed when no include and no generated file leads
up (`Project.repeats_of_write`).  Through `..` a generated file has a second path,
and is a source under it (`Project.drifts_examples`).
-/

namespace FlashStrings

open FileStep (Replaced)

namespace Project

variable {p : Project} {t t' : FileTree} {o : Outcome} {summary : WriteSummary}

/-- No path leads up, from the root through the includes to the generated files. -/
structure Descends (p : Project) : Prop where
  /-- The root begins at the root of the tree. -/
  root : p.root.Straight
  /-- No include leads up. -/
  includes : p.sources.Descends
  /-- The header does not. -/
  declaration : p.declarationPath.Straight
  /-- The source does not. -/
  definition : p.definitionPath.Straight

/-- The files that a write leaves. -/
def outputs (p : Project) : List Path := [p.declarationPath, p.definitionPath, p.databasePath]

theorem mem_outputs {path : Path} : path ∈ p.outputs ↔
    path = p.declarationPath ∨ path = p.definitionPath ∨ path = p.databasePath := by
  simp [outputs]

/-- The outputs are different files, and none is the temporary file of a later
one. -/
def Separate (p : Project) (t : FileTree) : Prop :=
  [p.declarationPath, p.definitionPath, p.databasePath].Pairwise fun a b =>
    t.resolve? a ≠ t.resolve? b ∧ t.resolve? a ≠ t.resolve? (FileStep.temporary b)

instance (p : Project) (t : FileTree) : Decidable (p.Separate t) :=
  inferInstanceAs (Decidable (List.Pairwise _ _))

/-- The database file is one of the sources. -/
def ScansDatabase (p : Project) (t : FileTree) : Prop :=
  ∃ file ∈ p.sources.files t, t.resolve? p.databasePath = some (p.root.join file).names

instance (p : Project) (t : FileTree) : Decidable (p.ScansDatabase t) :=
  inferInstanceAs (Decidable (∃ file ∈ p.sources.files t, _))

/-- A file that is met as a source is one of the outputs. -/
def ScansOutput (p : Project) (t : FileTree) : Prop :=
  ∃ r ∈ p.sources.listed t, p.sources.admits r = true ∧
    ∃ output ∈ p.outputs, t.resolve? r = t.resolve? output

instance (p : Project) (t : FileTree) : Decidable (p.ScansOutput t) :=
  inferInstanceAs (Decidable (∃ r ∈ p.sources.listed t, _))

/-- A run finds again what an outcome holds, and its write touches no generated
file and leaves the database file as it is. -/
def Repeats (p : Project) (t : FileTree) (o : Outcome) : Prop :=
  ∃ o' t' summary, p.run t = .ok o' ∧ p.write t o' = (t', .ok summary) ∧
    o'.issues = o.issues ∧ o'.generated = o.generated ∧
    o'.database.entries = o.database.entries ∧ o'.database.autoInit = o.database.autoInit ∧
    summary.written = [] ∧ t'.read? p.databasePath = t.read? p.databasePath

/-! ## What a write leaves -/

/-- The trees on the way of a write.  Writing the database again changes nothing. -/
theorem replaced_of_write (h : p.write t o = (t', .ok summary)) :
    ∃ t₁ t₂, Replaced t t₁ p.declarationPath o.generated.declaration ∧
      Replaced t₁ t₂ p.definitionPath o.generated.definition ∧
      Replaced t₂ t' p.databasePath o.database.toText ∧
      FileStep.performAll t' (p.databaseSteps o) = (t', none) := by
  obtain ⟨-, hsteps, -⟩ := write_eq_ok_iff.1 h
  obtain ⟨t₁, t₂, hway⟩ := performAll_writeSteps_iff.1 hsteps
  exact ⟨t₁, t₂, FileStep.replaced_of_ofChange hway.declaration,
    FileStep.replaced_of_ofChange hway.definition, FileStep.replaced_of_performAll hway.database,
    FileStep.performAll_ofContent_again hway.database⟩

/-- A text is kept when another file is replaced, if the two are told apart in a
later tree. -/
theorem readText?_of_replaced {u : FileTree} {path other : Path} {text text' : String}
    (h : Replaced t t' other text') (hkeeps : t'.KeepsDirectories u)
    (hplace : u.resolve? path ≠ u.resolve? other ∧
      u.resolve? path ≠ u.resolve? (FileStep.temporary other))
    (hread : t.readText? path = some text) : t'.readText? path = some text := by
  obtain ⟨content, hcontent, htext⟩ := Option.bind_eq_some_iff.1 hread
  obtain ⟨q, hq, hnode⟩ := FileTree.read?_eq_some_iff.1 hcontent
  have hq' := FileTree.resolve?_of_keepsDirectories h.keeps hq
  rw [FileTree.resolve?_of_keepsDirectories hkeeps hq'] at hplace
  have hnode' : t'.node? q = some (.file content) := by
    refine h.old q content hnode (fun hother => hplace.1 ?_) fun htemporary => hplace.2 ?_
    · exact (FileTree.resolve?_of_keepsDirectories hkeeps hother).symm
    · exact (FileTree.resolve?_of_keepsDirectories hkeeps htemporary).symm
  rw [FileTree.readText?, FileTree.read?_eq_some_iff.2 ⟨q, hq', hnode'⟩, Option.bind_some, htext]

/-- After a write the generated files hold their texts, and writing the database
again changes nothing. -/
theorem outputs_of_write (h : p.write t o = (t', .ok summary)) (hseparate : p.Separate t') :
    t'.readText? p.declarationPath = some o.generated.declaration ∧
      t'.readText? p.definitionPath = some o.generated.definition ∧
      FileStep.performAll t' (p.databaseSteps o) = (t', none) := by
  obtain ⟨t₁, t₂, hdeclaration, hdefinition, hlast, hagain⟩ := replaced_of_write h
  rw [Separate, List.pairwise_cons, List.pairwise_pair] at hseparate
  obtain ⟨hfirst, hsecond⟩ := hseparate
  refine ⟨?_, ?_, hagain⟩
  · refine readText?_of_replaced hlast (.refl t') (hfirst _ (by simp)) ?_
    exact readText?_of_replaced hdefinition hlast.keeps (hfirst _ (by simp)) hdeclaration.reads
  · exact readText?_of_replaced hlast (.refl t') hsecond hdefinition.reads

/-- A write adds no files but the outputs. -/
theorem file_of_write (h : p.write t o = (t', .ok summary)) {q : List String} {content : Bytes}
    (hq : t'.node? q = some (.file content)) : t.node? q = some (.file content) ∨
      ∃ path ∈ p.outputs, t'.resolve? path = some q := by
  obtain ⟨t₁, t₂, hdeclaration, hdefinition, hlast, -⟩ := replaced_of_write h
  rcases hlast.new q content hq with hq | hq
  · rcases hdefinition.new q content hq with hq | hq
    · rcases hdeclaration.new q content hq with hq | hq
      · exact .inl hq
      · exact .inr ⟨_, by simp [outputs], FileTree.resolve?_of_keepsDirectories
          (hdefinition.keeps.trans hlast.keeps) hq⟩
    · exact .inr ⟨_, by simp [outputs], FileTree.resolve?_of_keepsDirectories hlast.keeps hq⟩
  · exact .inr ⟨_, by simp [outputs], hq⟩

/-- A write keeps all directories and leaves a sound tree. -/
theorem keeps_of_write (h : p.write t o = (t', .ok summary)) :
    t.KeepsDirectories t' ∧ (t.Sound → t'.Sound) := by
  obtain ⟨t₁, t₂, hdeclaration, hdefinition, hlast, -⟩ := replaced_of_write h
  exact ⟨(hdeclaration.keeps.trans hdefinition.keeps).trans hlast.keeps,
    hlast.sound ∘ hdefinition.sound ∘ hdeclaration.sound⟩

/-! ## The next run -/

/-- A file that is met as a source is read where it stands. -/
theorem place_of_read? {u : FileTree} {r : Path} {place : List String} {content : Bytes}
    (hroot : p.root.isAbsolute = true) (hr : r.isAbsolute = true)
    (hplace : t.resolve? r = some place)
    (hread : u.read? (p.root.join (r.relativeTo p.root)) = some content) :
    u.resolve? (p.root.join (r.relativeTo p.root)) = some place ∧
      u.node? place = some (.file content) := by
  obtain ⟨q, hq, hnode⟩ := FileTree.read?_eq_some_iff.1 hread
  obtain rfl := FileTree.place_eq_of_names_eq hr (Path.isAbsolute_join hroot _)
    (Path.names_join_relativeTo hr hroot).symm hplace hq
  exact ⟨hq, hnode⟩

/-- A run without errors has read all its sources. -/
theorem exists_read?_of_no_error {earlier : Database}
    (hok : Issue.anyError (p.runAfter t earlier).issues = false) {file : String}
    (hfile : file ∈ p.sources.files t) :
    ∃ content, t.read? (p.root.join file) = some content := by
  obtain ⟨s, hscan, -⟩ := scan_of_no_error hok
    (List.mem_map.2 ⟨_, hfile, rfl⟩ : p.scanFile t (p.known earlier) _ ∈ p.scans t earlier)
  obtain ⟨-, content, hread, -⟩ := hash_of_scanFile hscan
  exact ⟨content, hread⟩

/-- A write adds no sources and takes none away, if no output is met as a source and the
includes that lead up stand for what they stood for. -/
theorem files_of_write (hroot : p.root.Straight) (ht : t.Sound) (hrun : p.run t = .ok o)
    (hwrite : p.write t o = (t', .ok summary)) (hincludes : p.sources.KeepsIncludes t t')
    (hscans : ¬p.ScansOutput t')
    (hsources : ∀ file ∈ p.sources.files t,
      t'.read? (p.root.join file) = t.read? (p.root.join file)) :
    p.sources.files t' = p.sources.files t := by
  have ht' := (keeps_of_write hwrite).2 ht
  refine (SourceSettings.files_congr (s := p.sources) ht ht' hroot hincludes ?_ ?_).symm
  · -- a source of the first run holds what it held
    intro r hr hadmits place hplace
    obtain ⟨habsolute, -⟩ :=
      SourceSettings.exists_of_mem_listed (s := p.sources) ht hroot.isAbsolute hr
    have hfile : r.relativeTo p.root ∈ p.sources.files t :=
      SourceSettings.mem_files.2 ⟨r, hr, hadmits, rfl⟩
    obtain ⟨earlier, -, rfl⟩ := map_eq_ok hrun
    obtain ⟨content, hread⟩ := exists_read?_of_no_error (read?_write hwrite).1 hfile
    have hread' := (hsources _ hfile).trans hread
    rw [(place_of_read? hroot.isAbsolute habsolute hplace hread).2,
      (place_of_read? hroot.isAbsolute habsolute hplace hread').2]
  · -- a source of the next run was there, since it is no output
    intro r hr hadmits place hplace
    obtain ⟨content, hnode⟩ :=
      SourceSettings.node?_of_mem_listed (s := p.sources) ht' hroot.isAbsolute hr hplace
    rcases file_of_write hwrite hnode with hold | ⟨output, houtput, hresolve⟩
    · rw [hold, hnode]
    · exact absurd ⟨r, hr, hadmits, output, houtput, hplace.trans hresolve.symm⟩ hscans

/-- If no path leads up, only the database can be met as a source. -/
theorem not_scansOutput (hdown : p.Descends) (ht : t.Sound) (hdatabase : ¬p.ScansDatabase t) :
    ¬p.ScansOutput t := by
  rintro ⟨r, hr, hadmits, output, houtput, hplace⟩
  obtain ⟨path, hunder⟩ := SourceSettings.under_of_mem_listed ht hdown.root hdown.includes hr
  obtain ⟨-, place, -, hresolve, -⟩ :=
    SourceSettings.exists_of_mem_listed (s := p.sources) ht hdown.root.isAbsolute hr
  obtain rfl := FileTree.resolve?_eq_some hunder.straight hresolve
  rw [hresolve] at hplace
  have hexcluded : ∀ other : Path, other ∈ p.sources.excluded → other.Straight →
      t.resolve? other ≠ some r.names := by
    intro other hmem hother hother'
    have hsame : r.sameAs other = true :=
      (hunder.straight.sameAs_iff hother).2 (FileTree.resolve?_eq_some hother hother')
    rw [SourceSettings.admits, List.any_eq_true.2 ⟨other, hmem, hsame⟩] at hadmits
    simp at hadmits
  rcases mem_outputs.1 houtput with rfl | rfl | rfl
  · exact hexcluded _ (by simp [sources]) hdown.declaration hplace.symm
  · exact hexcluded _ (by simp [sources]) hdown.definition hplace.symm
  · refine hdatabase ⟨r.relativeTo p.root, SourceSettings.mem_files.2 ⟨r, hr, hadmits, rfl⟩, ?_⟩
    rw [← hplace, (hunder.straight.join_relativeTo hdown.root).2]

/-- After a write the database is loaded as it was saved. -/
theorem load_of_write (h : p.write t o = (t', .ok summary)) (hfits : o.database.fits = true) :
    Database.load t' p.databasePath = .ok o.database := by
  rw [Database.load_of_read? (read?_write h).2, if_pos hfits]

/-- Writing the same outcome again writes nothing. -/
theorem write_again {o' : Outcome} (h : p.write t o = (t', .ok summary))
    (hseparate : p.Separate t') (hissues : o'.issues = o.issues)
    (hgenerated : o'.generated = o.generated) (hsaved : o'.database = o.database) :
    p.write t' o' = (t', .ok ⟨[], [p.declarationPath, p.definitionPath]⟩) := by
  obtain ⟨hdeclaration, hdefinition, hsteps⟩ := outputs_of_write h hseparate
  have hfirst : p.declarationSteps t' o' = [] := by
    rw [declarationSteps, hgenerated, FileStep.ofChange, if_pos hdeclaration]
  have hsecond : p.definitionSteps t' o' = [] := by
    rw [definitionSteps, hfirst, hgenerated]
    exact if_pos hdefinition
  have hlast : p.writeSteps t' o' = p.databaseSteps o := by
    simp only [writeSteps, hfirst, hsecond, databaseSteps, hsaved, List.nil_append]
  have hsummary : p.writeSummary t' o' = ⟨[], [p.declarationPath, p.definitionPath]⟩ := by
    rw [writeSummary, hfirst, hsecond]
    rfl
  refine write_eq_ok_iff.2 ⟨hissues ▸ (read?_write h).1, ?_, hsummary⟩
  rw [hlast, hsteps]

/-- A run and a write that succeed leave nothing to do for the next ones, if no output is met
as a source, also where paths lead up.  An include that leads up stands for the same paths
before and behind the write; the outputs are told apart, and the write left the sources as
they were; the numbers of the database fit its file. -/
theorem repeats_of_not_scansOutput (hroot : p.root.Straight)
    (hincludes : ∀ text ∈ p.sources.includes, p.sources.IncludeDescends text ∨
      (p.sources.root t text).1 = (p.sources.root t' text).1)
    (ht : t.Sound) (hrun : p.run t = .ok o) (hwrite : p.write t o = (t', .ok summary))
    (hseparate : p.Separate t') (hscans : ¬p.ScansOutput t')
    (hsources : ∀ file ∈ p.sources.files t,
      t'.read? (p.root.join file) = t.read? (p.root.join file))
    (hfits : o.database.fits = true) : p.Repeats t' o := by
  have hkept : p.sources.KeepsIncludes t t' :=
    SourceSettings.keepsIncludes_of_keepsDirectories ht hroot.isAbsolute (keeps_of_write hwrite).1
      hincludes
  have hfiles := files_of_write hroot ht hrun hwrite hkept hscans hsources
  have hload := load_of_write hwrite hfits
  obtain ⟨earlier, -, rfl⟩ := map_eq_ok hrun
  obtain ⟨hissues, hgenerated, hsaved⟩ := runAfter_again (read?_write hwrite).1 hfiles hsources
  refine ⟨_, t', _, ?_, write_again hwrite hseparate hissues hgenerated hsaved, hissues,
    hgenerated, congrArg Database.entries hsaved, congrArg Database.autoInit hsaved, rfl, rfl⟩
  rw [run, hload, Except.map]

/-- A run and a write that succeed leave nothing to do for the next ones.  No path
leads up, the outputs are told apart, the database is no source, and the write
left the sources as they were; the numbers of the database fit its file. -/
theorem repeats_of_write (hdown : p.Descends) (ht : t.Sound) (hrun : p.run t = .ok o)
    (hwrite : p.write t o = (t', .ok summary)) (hseparate : p.Separate t')
    (hdatabase : ¬p.ScansDatabase t')
    (hsources : ∀ file ∈ p.sources.files t,
      t'.read? (p.root.join file) = t.read? (p.root.join file))
    (hfits : o.database.fits = true) : p.Repeats t' o :=
  repeats_of_not_scansOutput hdown.root (fun text htext => .inl (hdown.includes text htext)) ht hrun
    hwrite hseparate (not_scansOutput hdown ((keeps_of_write hwrite).2 ht) hdatabase) hsources hfits

/-! ### A project with one source, run again -/

/-- The tree after a first run and its write. -/
def written (p : Project) (t : FileTree) : FileTree := (p.write t (p.runAfter t {})).1

theorem write_of_isOk (h : (p.write t (p.runAfter t {})).2.isOk = true) :
    ∃ summary, p.write t (p.runAfter t {}) = (p.written t, .ok summary) := by
  rw [written]
  cases hwrite : p.write t (p.runAfter t {}) with
  | mk t' result =>
    rw [hwrite] at h
    cases result with
    | error _ => cases h
    | ok summary => exact ⟨summary, rfl⟩

theorem descends_sample : sample.Descends where
  root := by decide
  includes := by
    intro text htext
    obtain rfl : text = "src" := by simpa [sources, sample] using htext
    rw [SourceSettings.IncludeDescends, if_neg (by decide)]
    decide
  declaration := by decide
  definition := by decide

theorem sound_sampleTree : sampleTree.Sound := .of_entries rfl (by decide +kernel)

theorem run_sampleTree : sample.run sampleTree = .ok (sample.runAfter sampleTree {}) :=
  run_of_has (by decide +kernel)

/-- What a first run and its write leave. -/
structure Starts (p : Project) (t : FileTree) : Prop where
  /-- The write succeeds. -/
  write : ∃ summary, p.write t (p.runAfter t {}) = (p.written t, .ok summary)
  /-- The outputs are different files. -/
  separate : p.Separate (p.written t)
  /-- The database is no source. -/
  database : ¬p.ScansDatabase (p.written t)
  /-- The sources are left as they were. -/
  sources : ∀ file ∈ p.sources.files t,
    (p.written t).read? (p.root.join file) = t.read? (p.root.join file)
  /-- The numbers of the database fit its file. -/
  fits : (p.runAfter t {}).database.fits = true

/-- One evaluation of the run and its write gives all of it. -/
theorem starts_sample : sample.Starts sampleTree := by
  have hall : (sample.write sampleTree (sample.runAfter sampleTree {})).2.isOk = true ∧
      sample.Separate (sample.written sampleTree) ∧
      ¬sample.ScansDatabase (sample.written sampleTree) ∧
      (∀ file ∈ sample.sources.files sampleTree,
        (sample.written sampleTree).read? (sample.root.join file) =
          sampleTree.read? (sample.root.join file)) ∧
      (sample.runAfter sampleTree {}).database.fits = true := by decide +kernel
  obtain ⟨hok, hseparate, hdatabase, hsources, hfits⟩ := hall
  exact ⟨write_of_isOk hok, hseparate, hdatabase, hsources, hfits⟩

theorem repeats_of_write_sample :
    sample.Repeats (sample.written sampleTree) (sample.runAfter sampleTree {}) := by
  obtain ⟨⟨_, hwrite⟩, hseparate, hdatabase, hsources, hfits⟩ := starts_sample
  exact repeats_of_write descends_sample sound_sampleTree run_sampleTree hwrite hseparate
    hdatabase hsources hfits

/-- The sources stand beside the root, so the include leads up. -/
def beside : Project := { root := ⟨"/p/app"⟩, config := { includes := ["../src"] } }

/-- The tree before the first run. -/
def besideTree : FileTree where
  nodes := .ofList [(["p"], .directory), (["p", "app"], .directory), (["p", "src"], .directory),
    (["p", "src", "a.c"], .file sampleSource)]

/-- No output is met through an include beside the root. -/
theorem repeats_beside :
    beside.Repeats (beside.written besideTree) (beside.runAfter besideTree {}) := by
  have hall : (beside.write besideTree (beside.runAfter besideTree {})).2.isOk = true ∧
      beside.Separate (beside.written besideTree) ∧
      ¬beside.ScansOutput (beside.written besideTree) ∧
      (∀ text ∈ beside.sources.includes, (beside.sources.root besideTree text).1 =
        (beside.sources.root (beside.written besideTree) text).1) ∧
      (∀ file ∈ beside.sources.files besideTree,
        (beside.written besideTree).read? (beside.root.join file) =
          besideTree.read? (beside.root.join file)) ∧
      (beside.runAfter besideTree {}).database.fits = true := by decide +kernel
  obtain ⟨hok, hseparate, hscans, hincludes, hsources, hfits⟩ := hall
  obtain ⟨_, hwrite⟩ := write_of_isOk hok
  exact repeats_of_not_scansOutput (by decide) (fun text htext => .inr (hincludes text htext))
    (.of_entries rfl (by decide +kernel)) (run_of_has (by decide +kernel)) hwrite hseparate
    hscans hsources hfits

/-! ### Outputs that are not kept apart -/

/-- A run does not repeat another one if a file is a source for the first time. -/
theorem not_repeats_of_new_source (hwrite : p.write t o = (t', .ok summary))
    (hfits : o.database.fits = true) {file : String} (hfile : file ∈ p.sources.files t')
    (hnew : o.database.files.get? file = none) : ¬p.Repeats t' o := by
  rintro ⟨o', t'', summary', hrun, hwrite', hissues, -, -, -, -, hread⟩
  obtain ⟨hok, hsaved⟩ := read?_write hwrite
  rw [(read?_write hwrite').2, hsaved] at hread
  have hsame : o.database = o'.database :=
    Database.eq_of_toText_eq (Utf8.encode_injective (Option.some.inj hread)).symm hfits
  obtain ⟨earlier, -, rfl⟩ := map_eq_ok hrun
  obtain ⟨s, hscan, -⟩ := scan_of_no_error (hissues ▸ hok)
    (List.mem_map.2 ⟨file, hfile, rfl⟩ : p.scanFile t' (p.known earlier) file ∈ p.scans t' earlier)
  have hget := get?_files_of_scan (List.mem_map.2 ⟨file, hfile, hscan⟩ : .ok s ∈ p.scans t' earlier)
  rw [← hsame, (hash_of_scanFile hscan).1, hnew] at hget
  cases hget

theorem declarationSteps_of_written (h : p.write t o = (t', .ok summary))
    (hnone : summary.written = []) : p.declarationSteps t o = [] := by
  obtain ⟨-, -, rfl⟩ := write_eq_ok_iff.1 h
  rw [writeSummary, List.map_eq_nil_iff, List.filter_eq_nil_iff] at hnone
  simpa using hnone (p.declarationPath, p.declarationSteps t o) List.mem_cons_self

/-- A header that is not there is written. -/
theorem not_repeats_of_missing (h : t.has p.declarationPath = false) : ¬p.Repeats t o := by
  rintro ⟨o', t', summary', -, hwrite, -, -, -, -, hwritten, -⟩
  have hsteps := declarationSteps_of_written hwrite hwritten
  rw [declarationSteps, FileStep.ofChange] at hsteps
  split at hsteps
  · next hread =>
    obtain ⟨content, hcontent, -⟩ := Option.bind_eq_some_iff.1 hread
    obtain ⟨q, hq, hnode⟩ := FileTree.read?_eq_some_iff.1 hcontent
    simp [FileTree.has, FileTree.find?, hq, hnode] at h
  · exact FileStep.ofContent_ne_nil _ _ hsteps

/-- A run and a write succeed with accepted settings, and the next run does not
repeat them, although the paths of the outputs are different, the output directory
does not lead up, no source is the database and the sources are as they were. -/
def Drifts (p : Project) (t : FileTree) : Prop :=
  p.config.check = .ok () ∧
    [p.declarationPath, p.definitionPath, p.databasePath].Pairwise (fun a b => a.sameAs b = false) ∧
    ".." ∉ Path.parts ⟨p.config.outputDir⟩ ∧
    ∃ o t' summary, p.run t = .ok o ∧ p.write t o = (t', .ok summary) ∧
      (∀ file ∈ p.sources.files t ++ p.sources.files t',
        t'.resolve? (p.root.join file) ≠ t'.resolve? p.databasePath) ∧
      (∀ file ∈ p.sources.files t,
        t'.read? (p.root.join file) = t.read? (p.root.join file)) ∧ ¬p.Repeats t' o

/-- A directory for sources that holds none. -/
def bareTree : FileTree where
  nodes := .ofList [(["p"], .directory), (["p", "src"], .directory)]

/-- The include leads up, so the generated files have a second path. -/
def climbing : Project := { root := ⟨"/p"⟩, config := { includes := ["src/../src"] } }

/-- The header has a path that leads up, and another one as a source. -/
def lifted : Project :=
  { root := ⟨"/p"⟩, config := { includes := ["src"], declarationFile := "../strings.h" } }

/-- The header is the temporary file of the database. -/
def clashing : Project :=
  { root := ⟨"/p"⟩
    config := { includes := ["src"], declarationFile := "db.tmp", database := "src/generated/db" } }

/-- What `Drifts` says but for the next run, over the tree without sources, with
what tells that this run differs. -/
theorem drifts_bareTree {p : Project} (differs : Prop)
    (h : p.config.errors = [] ∧
      [p.declarationPath, p.definitionPath, p.databasePath].Pairwise
        (fun a b => a.sameAs b = false) ∧
      ".." ∉ Path.parts ⟨p.config.outputDir⟩ ∧ bareTree.has p.databasePath = false ∧
      (p.write bareTree (p.runAfter bareTree {})).2.isOk = true ∧
      (∀ file ∈ p.sources.files bareTree ++ p.sources.files (p.written bareTree),
        (p.written bareTree).resolve? (p.root.join file) ≠
          (p.written bareTree).resolve? p.databasePath) ∧
      (∀ file ∈ p.sources.files bareTree,
        (p.written bareTree).read? (p.root.join file) = bareTree.read? (p.root.join file)) ∧
      differs)
    (hdiffers : ∀ summary, p.write bareTree (p.runAfter bareTree {}) =
        (p.written bareTree, .ok summary) → differs →
      ¬p.Repeats (p.written bareTree) (p.runAfter bareTree {})) : p.Drifts bareTree := by
  obtain ⟨herrors, hpaths, hdir, hnone, hok, hdatabase, hsources, h⟩ := h
  obtain ⟨summary, hwrite⟩ := write_of_isOk hok
  refine ⟨by rw [Config.check, herrors], hpaths, hdir, _, _, summary, run_of_has hnone, hwrite,
    hdatabase, hsources, hdiffers summary hwrite h⟩

/-- The next run of this project scans this file for the first time. -/
def HasNewSource (p : Project) (file : String) : Prop :=
  (p.runAfter bareTree {}).database.fits = true ∧ file ∈ p.sources.files (p.written bareTree) ∧
    (p.runAfter bareTree {}).database.files.get? file = none

instance (p : Project) (file : String) : Decidable (p.HasNewSource file) :=
  inferInstanceAs (Decidable (_ ∧ _))

/-- Generated files that are sources under a second path, and a header that the
write of the database removes. -/
theorem drifts_examples :
    climbing.Drifts bareTree ∧ lifted.Drifts bareTree ∧ clashing.Drifts bareTree := by
  refine ⟨drifts_bareTree (climbing.HasNewSource "src/../src/generated/spgm_auto_strings.h")
      (by decide +kernel) ?_,
    drifts_bareTree (lifted.HasNewSource "src/strings.h") (by decide +kernel) ?_,
    drifts_bareTree ((clashing.written bareTree).has clashing.declarationPath = false)
      (by decide +kernel) ?_⟩
  · exact fun _ hwrite ⟨hfits, hfile, hnew⟩ => not_repeats_of_new_source hwrite hfits hfile hnew
  · exact fun _ hwrite ⟨hfits, hfile, hnew⟩ => not_repeats_of_new_source hwrite hfits hfile hnew
  · exact fun _ _ hmissing => not_repeats_of_missing hmissing

end Project

end FlashStrings
