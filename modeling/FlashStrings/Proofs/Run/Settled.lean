import FlashStrings.Proofs.Run.Regenerate

/-!
# Settled outputs

A write that succeeds leaves a tree that holds the generated texts and the
database, byte by byte, and writing the same outcome again changes nothing
(`Project.settles_of_write`).  The outputs have to be different files, and none of
them the temporary file of a later one.  The settings are not checked for this, and
a header that does not keep to it is lost without an error
(`Project.loses_clashing`).
-/

namespace FlashStrings

namespace Project

variable {p : Project} {t t' : FileTree} {o : Outcome} {summary : WriteSummary}

/-- A tree holds the outputs of a run, and writing them again writes no generated
file and changes nothing. -/
structure Settles (p : Project) (t : FileTree) (o : Outcome) : Prop where
  /-- The header holds the generated declarations. -/
  declaration : t.read? p.declarationPath = some (Utf8.encode o.generated.declaration)
  /-- The source holds the generated definitions. -/
  definition : t.read? p.definitionPath = some (Utf8.encode o.generated.definition)
  /-- The database is loaded as it was saved. -/
  database : Database.load t p.databasePath = .ok o.database
  /-- Nothing is left to write. -/
  again : p.write t o = (t, .ok ⟨[], [p.declarationPath, p.definitionPath]⟩)

/-- A write that succeeds leaves nothing to write.  The outputs are told apart, and
the numbers of the database fit its file. -/
theorem settles_of_write (h : p.write t o = (t', .ok summary)) (hseparate : p.Separate t')
    (hfits : o.database.fits = true) : p.Settles t' o := by
  obtain ⟨hdeclaration, hdefinition, -⟩ := outputs_of_write h hseparate
  exact {
    declaration := FileTree.readText?_eq_some_iff.1 hdeclaration
    definition := FileTree.readText?_eq_some_iff.1 hdefinition
    database := load_of_write h hfits
    again := write_again h hseparate rfl rfl rfl }

theorem settles_of_write_sample :
    sample.Settles (sample.written sampleTree) (sample.runAfter sampleTree {}) := by
  obtain ⟨_, hwrite⟩ := starts_sample.write
  exact settles_of_write hwrite starts_sample.separate starts_sample.fits

/-! ### Outputs that are lost -/

/-- A run and a write succeed with accepted settings, and the outputs are not what
the run generated. -/
def Loses (p : Project) (t : FileTree) : Prop :=
  p.config.check = .ok () ∧ ∃ o t' summary, p.run t = .ok o ∧
    p.write t o = (t', .ok summary) ∧ ¬p.Settles t' o

/-- A header that is the temporary file of the database is removed when the database
is written. -/
theorem loses_clashing : clashing.Loses bareTree := by
  have hall : clashing.config.errors = [] ∧ bareTree.has clashing.databasePath = false ∧
      (clashing.write bareTree (clashing.runAfter bareTree {})).2.isOk = true ∧
      (clashing.written bareTree).read? clashing.declarationPath = none := by decide +kernel
  obtain ⟨herrors, hnone, hok, hread⟩ := hall
  obtain ⟨summary, hwrite⟩ := write_of_isOk hok
  refine ⟨by rw [Config.check, herrors], _, _, summary, run_of_has hnone, hwrite, ?_⟩
  intro hsettles
  rw [hsettles.declaration] at hread
  cases hread

end Project

end FlashStrings
