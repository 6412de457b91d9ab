import FlashStrings.Run

/-!
# Writing the outputs

The outputs of a run are the generated files and the database.  A run with an
error has none.  Generated files that hold the right text already are not
touched; the database comes last, so that a write that was interrupted is done
again by the next run.
-/

namespace FlashStrings

/-- What became of the generated files. -/
structure WriteSummary where
  /-- Those that were written. -/
  written : List Path
  /-- Those that held the right text. -/
  unchanged : List Path
  deriving DecidableEq, Repr

namespace Project

/-- The steps that write the header. -/
def declarationSteps (p : Project) (t : FileTree) (o : Outcome) : List FileStep :=
  FileStep.ofChange t p.declarationPath o.generated.declaration

/-- The steps that write the source, after those for the header. -/
def definitionSteps (p : Project) (t : FileTree) (o : Outcome) : List FileStep :=
  FileStep.ofChange (FileStep.performAll t (p.declarationSteps t o)).1 p.definitionPath
    o.generated.definition

/-- The steps that write the database. -/
def databaseSteps (p : Project) (o : Outcome) : List FileStep :=
  FileStep.ofContent p.databasePath (Utf8.encode o.database.toText)

/-- All steps that write the outputs. -/
def writeSteps (p : Project) (t : FileTree) (o : Outcome) : List FileStep :=
  p.declarationSteps t o ++ p.definitionSteps t o ++ p.databaseSteps o

/-- Which generated files the steps write. -/
def writeSummary (p : Project) (t : FileTree) (o : Outcome) : WriteSummary :=
  let files := [
    (p.declarationPath, p.declarationSteps t o), (p.definitionPath, p.definitionSteps t o)]
  { written := (files.filter fun (_, steps) => !steps.isEmpty).map (·.1)
    unchanged := (files.filter fun (_, steps) => steps.isEmpty).map (·.1) }

/-- Write the outputs of a run. -/
def write (p : Project) (t : FileTree) (o : Outcome) : FileTree × Except Failure WriteSummary :=
  if Issue.anyError o.issues then (t, .error .runWithErrors)
  else
    match FileStep.performAll t (p.writeSteps t o) with
    | (t', some s) => (t', .error (.step s))
    | (t', none) => (t', .ok (p.writeSummary t o))

end Project

end FlashStrings
