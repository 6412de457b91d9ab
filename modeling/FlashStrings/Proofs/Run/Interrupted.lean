import FlashStrings.Proofs.FileTree.Interrupted
import FlashStrings.Proofs.Run.Regenerate

/-!
# Interrupted writes

A write may be interrupted after any of its steps.  The outputs then hold what they
held before or what they hold in the end, and the steps that are left lead to the
same tree (`Project.redoes_of_stop`).  The database is written last, so up to the last
step the next run starts from the old one, and it finds what the first run found
(`Project.run_of_stop`).  So a run and a write over the tree that was left end as
the first ones would have (`Project.resumes_of_not_meetsTouched`).

For this the outputs and their temporary files have to be different files, none of them
a source, and an include that leads up has to stand for the same paths after the stop.
No include has to when no path leads up (`Project.resumes_of_stop`).  Through `..` a
directory that the write has made opens a path that led nowhere before, and the next run
may find something else there (`Project.breaks_examples`).
-/

namespace FlashStrings

open FileStep (StopsAt temporary)

namespace Project

variable {p : Project} {t t₁ t₂ t' u : FileTree} {o : Outcome} {summary : WriteSummary}

/-! ## The files of a write -/

/-- The outputs and their temporary files, which are all that a write touches. -/
def touched (p : Project) : List Path := p.outputs ++ p.outputs.map temporary

/-- What a write touches before the database has its place. -/
def unsaved (p : Project) : List Path :=
  [p.declarationPath, p.definitionPath] ++ p.outputs.map temporary

/-- The outputs and their temporary files are different files, and no path to them leads
up. -/
structure OutputsApart (p : Project) : Prop where
  /-- The root begins at the root of the tree. -/
  root : p.root.Straight
  /-- The path of the header does not lead up. -/
  declaration : p.declarationPath.Straight
  /-- The path of the source does not. -/
  definition : p.definitionPath.Straight
  /-- The path of the database does not. -/
  database : p.databasePath.Straight
  /-- All files that a write touches are different. -/
  distinct : p.touched.Pairwise fun a b => a.sameAs b = false

/-- The outputs and their temporary files are different files, and no path leads up. -/
structure Apart (p : Project) : Prop extends Descends p where
  /-- The database does not. -/
  database : p.databasePath.Straight
  /-- All files that a write touches are different. -/
  distinct : p.touched.Pairwise fun a b => a.sameAs b = false

theorem Apart.outputsApart (h : p.Apart) : p.OutputsApart :=
  ⟨h.root, h.declaration, h.definition, h.database, h.distinct⟩

/-- A file that a write touches is one of the sources. -/
def ScansTouched (p : Project) (t : FileTree) : Prop :=
  ∃ file ∈ p.sources.files t, ∃ path ∈ p.touched, (p.root.join file).sameAs path = true

instance (p : Project) (t : FileTree) : Decidable (p.ScansTouched t) :=
  inferInstanceAs (Decidable (∃ file ∈ p.sources.files t, ∃ path ∈ _, _))

/-- A file that is met as a source is one that a write touches. -/
def MeetsTouched (p : Project) (t : FileTree) : Prop :=
  ∃ r ∈ p.sources.listed t, p.sources.admits r = true ∧
    ∃ path ∈ p.touched, t.resolve? r = some path.names

namespace OutputsApart

theorem straight (h : p.OutputsApart) {path : Path} (hpath : path ∈ p.outputs) : path.Straight := by
  rcases mem_outputs.1 hpath with rfl | rfl | rfl
  · exact h.declaration
  · exact h.definition
  · exact h.database

theorem straight_touched (h : p.OutputsApart) {path : Path} (hpath : path ∈ p.touched) :
    path.Straight := by
  rcases List.mem_append.1 hpath with hpath | hpath
  · exact h.straight hpath
  · obtain ⟨output, houtput, rfl⟩ := List.mem_map.1 hpath
    exact FileStep.straight_temporary (h.straight houtput)

/-- The files that a write touches have different names. -/
theorem nodup (h : p.OutputsApart) : (p.touched.map Path.names).Nodup := by
  rw [List.Nodup, List.pairwise_map]
  refine h.distinct.imp_of_mem fun ha hb hsame hnames => ?_
  rw [((h.straight_touched ha).sameAs_iff (h.straight_touched hb)).2 hnames] at hsame
  cases hsame

/-- No output is a temporary file. -/
theorem names_ne_temporary (h : p.OutputsApart) {path output : Path} (hpath : path ∈ p.outputs)
    (houtput : output ∈ p.outputs) : path.names ≠ (temporary output).names := by
  have hnodup := h.nodup
  rw [touched, List.map_append, List.nodup_append] at hnodup
  exact hnodup.2.2 _ (List.mem_map_of_mem hpath) _
    (List.mem_map_of_mem (List.mem_map_of_mem houtput))

theorem names_ne (h : p.OutputsApart) : p.declarationPath.names ≠ p.definitionPath.names ∧
    p.declarationPath.names ≠ p.databasePath.names ∧
    p.definitionPath.names ≠ p.databasePath.names := by
  have hnodup : (p.outputs.map Path.names).Nodup :=
    h.nodup.sublist ((List.sublist_append_left ..).map _)
  simpa [outputs, and_assoc] using hnodup

theorem database_not_mem (h : p.OutputsApart) :
    p.databasePath.names ∉ p.unsaved.map Path.names := by
  obtain ⟨-, hdeclaration, hdefinition⟩ := h.names_ne
  rw [unsaved, List.map_append, List.mem_append, not_or]
  refine ⟨by simp [hdeclaration.symm, hdefinition.symm], fun hmem => ?_⟩
  obtain ⟨_, hmem, hnames⟩ := List.mem_map.1 hmem
  obtain ⟨output, houtput, rfl⟩ := List.mem_map.1 hmem
  exact h.names_ne_temporary (by simp [outputs]) houtput hnames.symm

/-- The outputs are kept while the temporary file of one of them is written. -/
theorem read?_eq_of_temporary (h : p.OutputsApart) (ht : t.Sound) {output : Path}
    (houtput : output ∈ p.outputs) (htouches : t.Touches u [(temporary output).names]) :
    ∀ path ∈ p.outputs, u.read? path = t.read? path := fun path hpath =>
  htouches.read?_eq ht (h.straight hpath) (by simpa using h.names_ne_temporary hpath houtput)

/-- An output is kept while another one is replaced. -/
theorem read?_eq_of_ne (h : p.OutputsApart) (ht : t.Sound) {path output : Path}
    (hpath : path ∈ p.outputs) (houtput : output ∈ p.outputs) (hne : path.names ≠ output.names)
    (htouches : t.Touches u [output.names, (temporary output).names]) :
    u.read? path = t.read? path :=
  htouches.read?_eq ht (h.straight hpath)
    (by simpa using ⟨hne, h.names_ne_temporary hpath houtput⟩)

end OutputsApart

/-! ## The way of a write -/

namespace Way

/-- Each part of a write touches one output and its temporary file. -/
theorem touches (h : p.Way o t t₁ t₂ t') (hapart : p.OutputsApart) :
    t.Touches t₁ [p.declarationPath.names, (temporary p.declarationPath).names] ∧
      t₁.Touches t₂ [p.definitionPath.names, (temporary p.definitionPath).names] ∧
      t₂.Touches t' [p.databasePath.names, (temporary p.databasePath).names] :=
  ⟨FileStep.touches_ofChange hapart.declaration h.declaration,
    FileStep.touches_ofChange hapart.definition h.definition,
    FileStep.touches_ofContent hapart.database h.database⟩

theorem sound (h : p.Way o t t₁ t₂ t') (hapart : p.OutputsApart) (ht : t.Sound) :
    t₁.Sound ∧ t₂.Sound := by
  obtain ⟨hfirst, hsecond, -⟩ := h.touches hapart
  exact ⟨hfirst.sound ht, hsecond.sound (hfirst.sound ht)⟩

/-- With the header there, it is the new one and the others are the old ones. -/
theorem read?_declaration (h : p.Way o t t₁ t₂ t') (hapart : p.OutputsApart) (ht : t.Sound) :
    t₁.read? p.declarationPath = t'.read? p.declarationPath ∧
      t₁.read? p.definitionPath = t.read? p.definitionPath ∧
      t₁.read? p.databasePath = t.read? p.databasePath := by
  obtain ⟨hfirst, hsecond, hthird⟩ := h.touches hapart
  obtain ⟨ht₁, ht₂⟩ := h.sound hapart ht
  obtain ⟨hne₁₂, hne₁₃, -⟩ := hapart.names_ne
  refine ⟨?_, ?_, ?_⟩
  · have hread₂ : t₂.read? p.declarationPath = t₁.read? p.declarationPath :=
      hapart.read?_eq_of_ne ht₁ (by simp [outputs]) (by simp [outputs]) hne₁₂ hsecond
    have hread₃ : t'.read? p.declarationPath = t₂.read? p.declarationPath :=
      hapart.read?_eq_of_ne ht₂ (by simp [outputs]) (by simp [outputs]) hne₁₃ hthird
    rw [hread₃, hread₂]
  · exact hapart.read?_eq_of_ne ht (by simp [outputs]) (by simp [outputs]) hne₁₂.symm hfirst
  · exact hapart.read?_eq_of_ne ht (by simp [outputs]) (by simp [outputs]) hne₁₃.symm hfirst

/-- With the source there as well, only the database is the old one. -/
theorem read?_definition (h : p.Way o t t₁ t₂ t') (hapart : p.OutputsApart) (ht : t.Sound) :
    t₂.read? p.declarationPath = t'.read? p.declarationPath ∧
      t₂.read? p.definitionPath = t'.read? p.definitionPath ∧
      t₂.read? p.databasePath = t.read? p.databasePath := by
  obtain ⟨hfirst, hsecond, hthird⟩ := h.touches hapart
  obtain ⟨ht₁, ht₂⟩ := h.sound hapart ht
  obtain ⟨-, hne₁₃, hne₂₃⟩ := hapart.names_ne
  refine ⟨Eq.symm ?_, Eq.symm ?_, ?_⟩
  · exact hapart.read?_eq_of_ne ht₂ (by simp [outputs]) (by simp [outputs]) hne₁₃ hthird
  · exact hapart.read?_eq_of_ne ht₂ (by simp [outputs]) (by simp [outputs]) hne₂₃ hthird
  · rw [← (h.read?_declaration hapart ht).2.2]
    exact hapart.read?_eq_of_ne ht₁ (by simp [outputs]) (by simp [outputs]) hne₂₃.symm hsecond

end Way

/-! ## What is left to do -/

/-- A write stops on the way to the header, on the way from there to the source, or
on the way from there to the database. -/
theorem stages_of_stop (hway : p.Way o t t₁ t₂ t') (hapart : p.OutputsApart) (ht : t.Sound)
    (h : StopsAt t (p.writeSteps t o) u) :
    (t.Touches u [(temporary p.declarationPath).names] ∧
        FileStep.performAll u (p.declarationSteps u o) = (t₁, none)) ∨
      (t₁.Touches u [(temporary p.definitionPath).names] ∧ FileStep.performAll u
        (FileStep.ofChange u p.definitionPath o.generated.definition) = (t₂, none)) ∨
      StopsAt t₂ (p.databaseSteps o) u := by
  have hne : ∀ path ∈ p.outputs, path.names ≠ (temporary path).names := fun path hpath =>
    hapart.names_ne_temporary hpath hpath
  have hdefinition : StopsAt t₁ (FileStep.ofChange t₁ p.definitionPath o.generated.definition) u →
      (t₁.Touches u [(temporary p.definitionPath).names] ∧ FileStep.performAll u
        (FileStep.ofChange u p.definitionPath o.generated.definition) = (t₂, none)) ∨
      StopsAt t₂ (p.databaseSteps o) u := by
    intro h
    obtain ⟨hredo, htouches | rfl⟩ := FileStep.resumes_ofChange hapart.definition
      (hne _ (by simp [outputs])) (hway.sound hapart ht).1 hway.definition h
    · exact .inl ⟨htouches, hredo⟩
    · exact .inr (.start ..)
  rw [writeSteps, definitionSteps, hway.declaration] at h
  rcases h.append with h | ⟨_, hgenerated, h⟩
  · rcases h.append with h | ⟨_, hdeclaration, h⟩
    · obtain ⟨hredo, htouches | rfl⟩ := FileStep.resumes_ofChange hapart.declaration
        (hne _ (by simp [outputs])) ht hway.declaration h
      · exact .inl ⟨htouches, hredo⟩
      · exact .inr (hdefinition (.start ..))
    · obtain ⟨rfl, -⟩ := Prod.mk.inj (hway.declaration.symm.trans hdeclaration)
      exact .inr (hdefinition h)
  · rw [FileStep.performAll_append_of_eq hway.declaration, hway.definition] at hgenerated
    obtain ⟨rfl, -⟩ := Prod.mk.inj hgenerated
    exact .inr (.inr h)

/-- A file that holds the text is not written again. -/
theorem ofChange_eq_nil {path : Path} {text : String}
    (h : FileStep.performAll t (FileStep.ofChange t path text) = (t', none))
    (hread : u.read? path = t'.read? path) : FileStep.ofChange u path text = [] := by
  refine if_pos ?_
  rw [FileTree.readText?, hread]
  exact (FileStep.replaced_of_ofChange h).reads

/-- The steps of a write lead from a tree to where they led from another one.  Up to
the last step the database is the old one, and each output is the old or the new one. -/
structure Redoes (p : Project) (o : Outcome) (t t' u : FileTree) : Prop where
  /-- The steps lead there. -/
  steps : FileStep.performAll u (p.writeSteps u o) = (t', none)
  /-- Nothing else has changed, unless all was done. -/
  place : t.Touches u (p.unsaved.map Path.names) ∨ u = t'
  /-- No output is anything but the old or the new one. -/
  reads : ∀ path ∈ p.outputs, u.read? path = t.read? path ∨ u.read? path = t'.read? path

/-- After a stop on the way to the header all is done anew. -/
theorem redoes_declaration (hway : p.Way o t t₁ t₂ t') (hapart : p.OutputsApart) (ht : t.Sound)
    (htouches : t.Touches u [(temporary p.declarationPath).names])
    (hredo : FileStep.performAll u (p.declarationSteps u o) = (t₁, none)) :
    p.Redoes o t t' u where
  steps := performAll_writeSteps_iff.2 ⟨t₁, t₂, hredo, hway.definition, hway.database⟩
  place := .inl (htouches.mono (by simp [unsaved, outputs]))
  reads := fun path hpath =>
    .inl (hapart.read?_eq_of_temporary ht (by simp [outputs]) htouches path hpath)

/-- After a stop on the way to the source the header is not written again. -/
theorem redoes_definition (hway : p.Way o t t₁ t₂ t') (hapart : p.OutputsApart) (ht : t.Sound)
    (htouches : t₁.Touches u [(temporary p.definitionPath).names])
    (hredo : FileStep.performAll u
      (FileStep.ofChange u p.definitionPath o.generated.definition) = (t₂, none)) :
    p.Redoes o t t' u := by
  have hkept := hapart.read?_eq_of_temporary (hway.sound hapart ht).1 (by simp [outputs]) htouches
  obtain ⟨hdeclaration, hdefinition, hdatabase⟩ := hway.read?_declaration hapart ht
  have hnil : p.declarationSteps u o = [] :=
    ofChange_eq_nil hway.declaration (hkept _ (by simp [outputs]))
  refine ⟨performAll_writeSteps_iff.2 ⟨u, t₂, hnil ▸ rfl, hredo, hway.database⟩,
    .inl (((hway.touches hapart).1.trans htouches).mono (by simp [unsaved, outputs])),
    fun path hpath => ?_⟩
  rw [hkept path hpath]
  rcases mem_outputs.1 hpath with rfl | rfl | rfl
  · exact .inr hdeclaration
  · exact .inl hdefinition
  · exact .inl hdatabase

/-- After a stop on the way to the database only the database is written. -/
theorem redoes_database (hway : p.Way o t t₁ t₂ t') (hapart : p.OutputsApart) (ht : t.Sound)
    (hstop : StopsAt t₂ (p.databaseSteps o) u) : p.Redoes o t t' u := by
  obtain ⟨hfirst, hsecond, -⟩ := hway.touches hapart
  obtain ⟨hdeclaration, hdefinition, hdatabase⟩ := hway.read?_definition hapart ht
  have hsteps : u.read? p.declarationPath = t'.read? p.declarationPath →
      u.read? p.definitionPath = t'.read? p.definitionPath →
      FileStep.performAll u (p.databaseSteps o) = (t', none) →
      FileStep.performAll u (p.writeSteps u o) = (t', none) := by
    intro hread₁ hread₂ hredo
    have hnil₁ : p.declarationSteps u o = [] := ofChange_eq_nil hway.declaration
      (hread₁.trans ((hway.read?_declaration hapart ht).1).symm)
    have hnil₂ := ofChange_eq_nil hway.definition (hread₂.trans hdefinition.symm)
    exact performAll_writeSteps_iff.2 ⟨u, u, hnil₁ ▸ rfl, hnil₂ ▸ rfl, hredo⟩
  obtain ⟨hredo, htouches | rfl⟩ :=
    FileStep.resumes_ofContent hapart.database hway.database hstop
  · have hkept := hapart.read?_eq_of_temporary (hway.sound hapart ht).2 (by simp [outputs]) htouches
    refine ⟨hsteps ((hkept _ (by simp [outputs])).trans hdeclaration)
        ((hkept _ (by simp [outputs])).trans hdefinition) hredo,
      .inl (((hfirst.trans hsecond).trans htouches).mono (by simp [unsaved, outputs])),
      fun path hpath => ?_⟩
    rw [hkept path hpath]
    rcases mem_outputs.1 hpath with rfl | rfl | rfl
    · exact .inr hdeclaration
    · exact .inr hdefinition
    · exact .inl hdatabase
  · exact ⟨hsteps rfl rfl hredo, .inr rfl, fun _ _ => .inr rfl⟩

/-- A write that was interrupted after any of its steps can be redone. -/
theorem redoes_of_stop (hapart : p.OutputsApart) (ht : t.Sound)
    (hsteps : FileStep.performAll t (p.writeSteps t o) = (t', none))
    (hstop : StopsAt t (p.writeSteps t o) u) : p.Redoes o t t' u := by
  obtain ⟨t₁, t₂, hway⟩ := performAll_writeSteps_iff.1 hsteps
  rcases stages_of_stop hway hapart ht hstop with ⟨htouches, hredo⟩ | ⟨htouches, hredo⟩ | hstop
  · exact redoes_declaration hway hapart ht htouches hredo
  · exact redoes_definition hway hapart ht htouches hredo
  · exact redoes_database hway hapart ht hstop

/-! ## The next run -/

/-- Trees that differ in no source have the same sources with the same contents. -/
theorem sources_of_touches (hapart : p.OutputsApart) (ht : t.Sound)
    (htouches : t.Touches u (p.touched.map Path.names))
    (hincludes : p.sources.KeepsIncludes t u)
    (hreads : ∀ file ∈ p.sources.files t, ∃ content, t.read? (p.root.join file) = some content)
    (hold : ¬p.MeetsTouched t) (hnew : ¬p.MeetsTouched u) :
    p.sources.files u = p.sources.files t ∧ ∀ file ∈ p.sources.files t,
      u.read? (p.root.join file) = t.read? (p.root.join file) := by
  have hu := htouches.sound ht
  have hroot := hapart.root.isAbsolute
  -- a source of one of the trees is at none of the places
  have hplace : ∀ {v : FileTree}, ¬p.MeetsTouched v → ∀ r ∈ p.sources.listed v,
      p.sources.admits r = true → ∀ place, v.resolve? r = some place →
        place ∉ p.touched.map Path.names := by
    intro v hmeets r hr hadmits place hplace hmem
    obtain ⟨path, hpath, rfl⟩ := List.mem_map.1 hmem
    exact hmeets ⟨r, hr, hadmits, path, hpath, hplace⟩
  refine ⟨(SourceSettings.files_congr (s := p.sources) ht hu hapart.root hincludes ?_ ?_).symm, ?_⟩
  · intro r hr hadmits place hresolve
    obtain ⟨content, hnode⟩ :=
      SourceSettings.node?_of_mem_listed (s := p.sources) ht hroot hr hresolve
    rw [hnode, (htouches.file_iff (hplace hold r hr hadmits place hresolve)).2 hnode]
  · intro r hr hadmits place hresolve
    obtain ⟨content, hnode⟩ :=
      SourceSettings.node?_of_mem_listed (s := p.sources) hu hroot hr hresolve
    rw [hnode, (htouches.file_iff (hplace hnew r hr hadmits place hresolve)).1 hnode]
  · intro file hmem
    obtain ⟨content, hread⟩ := hreads file hmem
    obtain ⟨r, hr, hadmits, rfl⟩ := SourceSettings.mem_files.1 hmem
    obtain ⟨habsolute, place, -, hresolve, -⟩ :=
      SourceSettings.exists_of_mem_listed (s := p.sources) ht hroot hr
    obtain ⟨hjoin, hnode⟩ := place_of_read? hroot habsolute hresolve hread
    have hjoin' := FileTree.resolve?_of_keepsDirectories htouches.keeps hjoin
    have hnode' := (htouches.file_iff (hplace hold r hr hadmits place hresolve)).2 hnode
    rw [hread]
    exact FileTree.read?_eq_some_iff.2 ⟨place, hjoin', hnode'⟩

/-- If no path leads up, what is met as a source is named by the sources. -/
theorem not_meetsTouched (hapart : p.Apart) (ht : t.Sound) (hscans : ¬p.ScansTouched t) :
    ¬p.MeetsTouched t := by
  rintro ⟨r, hr, hadmits, path, hpath, hplace⟩
  obtain ⟨_, hunder⟩ := SourceSettings.under_of_mem_listed ht hapart.root hapart.includes hr
  obtain ⟨hjoin, hnames⟩ := hunder.straight.join_relativeTo hapart.root
  refine hscans ⟨_, SourceSettings.mem_files.2 ⟨r, hr, hadmits, rfl⟩, path, hpath, ?_⟩
  refine (hjoin.sameAs_iff (hapart.outputsApart.straight_touched hpath)).2 (hnames.trans ?_)
  exact (FileTree.resolve?_eq_some hunder.straight hplace).symm

/-- The steps of a write touch the outputs and their temporary files. -/
theorem touches_of_steps (hapart : p.OutputsApart)
    (h : FileStep.performAll t (p.writeSteps t o) = (t', none)) :
    t.Touches t' (p.touched.map Path.names) := by
  obtain ⟨t₁, t₂, hway⟩ := performAll_writeSteps_iff.1 h
  obtain ⟨hfirst, hsecond, hthird⟩ := hway.touches hapart
  exact ((hfirst.trans hsecond).trans hthird).mono (by simp [touched, outputs])

/-- From a tree that a write has not finished the database is loaded as before. -/
theorem load_of_touches (hapart : p.OutputsApart) (ht : t.Sound)
    (hwrite : p.write t o = (t', .ok summary)) (hkeeps : u.KeepsDirectories t')
    (htouches : t.Touches u (p.unsaved.map Path.names)) :
    Database.load u p.databasePath = Database.load t p.databasePath := by
  have hfind : u.find? p.databasePath = t.find? p.databasePath := by
    refine htouches.find?_eq ht hapart.database hapart.database_not_mem fun hdir => ?_
    obtain ⟨q, hq, hnode⟩ := FileTree.read?_eq_some_iff.1 (read?_write hwrite).2
    obtain rfl := FileTree.resolve?_eq_some hapart.database hq
    rw [hkeeps.2 _ hdir] at hnode
    cases hnode
  have hhas : u.has p.databasePath = t.has p.databasePath := by
    rw [FileTree.has, FileTree.has, hfind]
  have hread : u.readText? p.databasePath = t.readText? p.databasePath := by
    rw [FileTree.readText?, FileTree.readText?, FileTree.read?, FileTree.read?, hfind]
  rw [Database.load, Database.load, hhas, hread]

/-- A run over the tree that an interrupted write left finds what the first one
found. -/
theorem run_of_stop (hapart : p.OutputsApart) (ht : t.Sound) (hrun : p.run t = .ok o)
    (hwrite : p.write t o = (t', .ok summary)) (hfits : o.database.fits = true)
    (hkeeps : u.KeepsDirectories t')
    (hplace : t.Touches u (p.unsaved.map Path.names) ∨ u = t')
    (hincludes : p.sources.KeepsIncludes t u)
    (hold : ¬p.MeetsTouched t) (hnew : ¬p.MeetsTouched u) :
    ∃ o', p.run u = .ok o' ∧ o'.issues = o.issues ∧ o'.generated = o.generated ∧
      o'.database = o.database := by
  obtain ⟨earlier, hload, rfl⟩ := map_eq_ok hrun
  have hreads : ∀ file ∈ p.sources.files t,
      ∃ content, t.read? (p.root.join file) = some content := fun file hfile =>
    exists_read?_of_no_error (read?_write hwrite).1 hfile
  rcases hplace with htouches | rfl
  · -- the run starts from the database that the first one started from
    have hload' := (load_of_touches hapart ht hwrite hkeeps htouches).trans hload
    have hsub : p.unsaved ⊆ p.touched := by simp [unsaved, touched, outputs]
    obtain ⟨hfiles, hread⟩ := sources_of_touches hapart ht
      (htouches.mono (List.map_subset _ hsub)) hincludes hreads hold hnew
    have hscans : p.scans u earlier = p.scans t earlier := by
      rw [scans, scans, hfiles]
      exact List.map_congr_left fun file hfile => scanFile_congr (hread file hfile)
    refine ⟨p.runAfter u earlier, by rw [run, hload', Except.map], runAfter_congr ?_⟩
    rw [hscans]
  · -- the run starts from the database that the first one saved
    obtain ⟨hfiles, hread⟩ := sources_of_touches hapart ht
      (touches_of_steps hapart (write_eq_ok_iff.1 hwrite).2.1) hincludes hreads hold hnew
    exact ⟨_, by rw [run, load_of_write hwrite hfits, Except.map],
      runAfter_again (read?_write hwrite).1 hfiles hread⟩

/-- A write that was interrupted after any of its steps is done again, if nothing that it
touches is met as a source, also where includes lead up: a run and a write over the tree that
it left end in the tree that it would have ended in, and until then each output is the old or
the new one.  An include that leads up stands for the same paths in the tree that was left. -/
theorem resumes_of_not_meetsTouched (hapart : p.OutputsApart) (ht : t.Sound)
    (hrun : p.run t = .ok o) (hwrite : p.write t o = (t', .ok summary))
    (hfits : o.database.fits = true) (hstop : StopsAt t (p.writeSteps t o) u)
    (hincludes : ∀ text ∈ p.sources.includes, p.sources.IncludeDescends text ∨
      (p.sources.root t text).1 = (p.sources.root u text).1)
    (hold : ¬p.MeetsTouched t) (hnew : ¬p.MeetsTouched u) :
    (∃ o' summary', p.run u = .ok o' ∧ p.write u o' = (t', .ok summary')) ∧
      ∀ path ∈ p.outputs, u.read? path = t.read? path ∨ u.read? path = t'.read? path := by
  obtain ⟨hok, hsteps, -⟩ := write_eq_ok_iff.1 hwrite
  have hredoes := redoes_of_stop hapart ht hsteps hstop
  have htouches : t.Touches u (p.touched.map Path.names) := by
    rcases hredoes.place with htouches | rfl
    · exact htouches.mono (List.map_subset _ (by simp [unsaved, touched, outputs]))
    · exact touches_of_steps hapart hsteps
  have hkept : p.sources.KeepsIncludes t u :=
    SourceSettings.keepsIncludes_of_keepsDirectories ht hapart.root.isAbsolute htouches.keeps
      hincludes
  obtain ⟨o', hrun', hissues, hgenerated, hdatabase⟩ := run_of_stop hapart ht hrun hwrite hfits
    (touches_of_steps hapart hredoes.steps).keeps hredoes.place hkept hold hnew
  have hsteps' : p.writeSteps u o' = p.writeSteps u o := by
    simp only [writeSteps, definitionSteps, declarationSteps, databaseSteps, hgenerated, hdatabase]
  exact ⟨⟨o', _, hrun', write_eq_ok_iff.2 ⟨hissues ▸ hok, hsteps' ▸ hredoes.steps, rfl⟩⟩,
    hredoes.reads⟩

theorem sound_of_stop (hapart : p.OutputsApart) (ht : t.Sound)
    (hsteps : FileStep.performAll t (p.writeSteps t o) = (t', none))
    (hstop : StopsAt t (p.writeSteps t o) u) : u.Sound := by
  rcases (redoes_of_stop hapart ht hsteps hstop).place with htouches | rfl
  · exact htouches.sound ht
  · exact (touches_of_steps hapart hsteps).sound ht

/-- A write that was interrupted after any of its steps is done again: a run and a
write over the tree that it left end in the tree that it would have ended in, and
until then each output is the old or the new one. -/
theorem resumes_of_stop (hapart : p.Apart) (ht : t.Sound) (hrun : p.run t = .ok o)
    (hwrite : p.write t o = (t', .ok summary)) (hfits : o.database.fits = true)
    (hstop : StopsAt t (p.writeSteps t o) u) (hold : ¬p.ScansTouched t)
    (hnew : ¬p.ScansTouched u) :
    (∃ o' summary', p.run u = .ok o' ∧ p.write u o' = (t', .ok summary')) ∧
      ∀ path ∈ p.outputs, u.read? path = t.read? path ∨ u.read? path = t'.read? path := by
  have hu := sound_of_stop hapart.outputsApart ht (write_eq_ok_iff.1 hwrite).2.1 hstop
  exact resumes_of_not_meetsTouched hapart.outputsApart ht hrun hwrite hfits hstop
    (fun text htext => .inl (hapart.includes text htext)) (not_meetsTouched hapart ht hold)
    (not_meetsTouched hapart hu hnew)

/-! ### A project with one source, interrupted -/

/-- The tree after so many steps of the first write. -/
def stopped (p : Project) (t : FileTree) (n : Nat) : FileTree :=
  (FileStep.performAll t ((p.writeSteps t (p.runAfter t {})).take n)).1

theorem stopsAt_stopped {n : Nat} (h : (FileStep.performAll t
    ((p.writeSteps t (p.runAfter t {})).take n)).2 = none) :
    StopsAt t (p.writeSteps t (p.runAfter t {})) (p.stopped t n) :=
  ⟨n, Prod.ext rfl h⟩

theorem apart_sample : sample.Apart :=
  { descends_sample with
    database := by decide
    distinct := by decide +kernel }

/-- The header is written, and of the source the temporary file. -/
theorem resumes_of_stop_sample :
    (∃ o' summary', sample.run (sample.stopped sampleTree 5) = .ok o' ∧
      sample.write (sample.stopped sampleTree 5) o' = (sample.written sampleTree, .ok summary')) ∧
      ∀ path ∈ sample.outputs,
        (sample.stopped sampleTree 5).read? path = sampleTree.read? path ∨
        (sample.stopped sampleTree 5).read? path = (sample.written sampleTree).read? path := by
  have hall : (FileStep.performAll sampleTree
        ((sample.writeSteps sampleTree (sample.runAfter sampleTree {})).take 5)).2 = none ∧
      ¬sample.ScansTouched sampleTree ∧
      ¬sample.ScansTouched (sample.stopped sampleTree 5) := by decide +kernel
  obtain ⟨hstop, hold, hnew⟩ := hall
  obtain ⟨_, hwrite⟩ := starts_sample.write
  exact resumes_of_stop apart_sample sound_sampleTree run_sampleTree hwrite starts_sample.fits
    (stopsAt_stopped hstop) hold hnew

/-! ### Paths that lead up -/

/-- A run and a write succeed with accepted settings, and the files that the write
touches are different and no sources.  But it is not done again after one of its
steps: the next run or its write fails, or an output holds neither what it held nor
what it should. -/
def Breaks (p : Project) (t : FileTree) : Prop :=
  p.config.check = .ok () ∧ t.Sound ∧ p.touched.Pairwise (fun a b => a.sameAs b = false) ∧
    ∃ o t' summary u, p.run t = .ok o ∧ p.write t o = (t', .ok summary) ∧
      StopsAt t (p.writeSteps t o) u ∧ ¬p.ScansTouched t ∧ ¬p.ScansTouched u ∧
      ((¬∃ o' u' summary', p.run u = .ok o' ∧ p.write u o' = (u', .ok summary')) ∨
        ∃ path ∈ p.outputs, u.read? path ≠ t.read? path ∧ u.read? path ≠ t'.read? path)

/-- A tree with no directory for generated files, and with a file that is no part of
the project. -/
def strayTree : FileTree where
  nodes := .ofList [(["p"], .directory), (["p", "src"], .directory),
    (["p", "src", "a.c"], .file (Utf8.encode "SPGM(\n" ++ [0xff]))]

/-- The path of the database goes through the directory of the generated files. -/
def climbingDatabase : Project :=
  { root := ⟨"/p"⟩, config := { includes := ["lib"], database := "src/generated/../a.c" } }

/-- An include does. -/
def climbingInclude : Project :=
  { root := ⟨"/p"⟩, config := { includes := ["src/generated/../a.c"] } }

/-- The path of the header does. -/
def climbingHeader : Project :=
  { root := ⟨"/p"⟩, config := { includes := ["lib"], declarationFile := "../a.c" } }

/-- What `Breaks` says but for the end, over the tree with another file, when the
first directory is made. -/
theorem breaks_strayTree {p : Project} (differs : Prop)
    (h : p.config.errors = [] ∧ p.touched.Pairwise (fun a b => a.sameAs b = false) ∧
      strayTree.has p.databasePath = false ∧
      (p.write strayTree (p.runAfter strayTree {})).2.isOk = true ∧
      (FileStep.performAll strayTree
        ((p.writeSteps strayTree (p.runAfter strayTree {})).take 1)).2 = none ∧
      ¬p.ScansTouched strayTree ∧ ¬p.ScansTouched (p.stopped strayTree 1) ∧ differs)
    (hdiffers : ∀ summary, p.write strayTree (p.runAfter strayTree {}) =
        (p.written strayTree, .ok summary) → differs →
      (¬∃ o' u' summary', p.run (p.stopped strayTree 1) = .ok o' ∧
        p.write (p.stopped strayTree 1) o' = (u', .ok summary')) ∨
      ∃ path ∈ p.outputs, (p.stopped strayTree 1).read? path ≠ strayTree.read? path ∧
        (p.stopped strayTree 1).read? path ≠ (p.written strayTree).read? path) :
    p.Breaks strayTree := by
  obtain ⟨herrors, hdistinct, hnone, hok, hstop, hold, hnew, h⟩ := h
  obtain ⟨summary, hwrite⟩ := write_of_isOk hok
  exact ⟨by rw [Config.check, herrors], .of_entries rfl (by decide +kernel), hdistinct, _, _,
    summary, _, run_of_has hnone, hwrite, stopsAt_stopped hstop, hold, hnew,
    hdiffers summary hwrite h⟩

/-- The file is found as a database, as a source and as a header once the directory of
the generated files is made. -/
theorem breaks_examples : climbingDatabase.Breaks strayTree ∧
    climbingInclude.Breaks strayTree ∧ climbingHeader.Breaks strayTree := by
  refine ⟨breaks_strayTree
      ((climbingDatabase.run (climbingDatabase.stopped strayTree 1)).isOk = false)
      (by decide +kernel) fun _ _ hrun => .inl ?_,
    breaks_strayTree
      ((climbingInclude.stopped strayTree 1).has climbingInclude.databasePath = false ∧
        Issue.anyError (climbingInclude.runAfter (climbingInclude.stopped strayTree 1) {}).issues)
      (by decide +kernel) fun _ _ hruns => .inl ?_,
    breaks_strayTree
      (climbingHeader.Separate (climbingHeader.written strayTree) ∧
        strayTree.read? climbingHeader.declarationPath = none ∧
        (climbingHeader.stopped strayTree 1).read? climbingHeader.declarationPath =
          some (Utf8.encode "SPGM(\n" ++ [0xff]))
      (by decide +kernel) fun _ hwrite hreads => .inr ?_⟩
  · rintro ⟨o', u', summary', hrun', -⟩
    rw [hrun'] at hrun
    cases hrun
  · obtain ⟨hnone, herror⟩ := hruns
    rintro ⟨o', u', summary', hrun, hwrite⟩
    rw [run_of_has hnone] at hrun
    obtain rfl := Except.ok.inj hrun
    rw [(read?_write hwrite).1] at herror
    cases herror
  · obtain ⟨hseparate, hold, hnew⟩ := hreads
    refine ⟨climbingHeader.declarationPath, by simp [outputs], ?_, fun hread => ?_⟩
    · rw [hnew, hold]
      simp
    · have htext := (outputs_of_write hwrite hseparate).1
      rw [FileTree.readText?, ← hread, hnew] at htext
      cases htext

end Project

end FlashStrings
