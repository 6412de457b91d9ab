import FlashStrings.Report.Issues

/-!
# Summary of a run

A run that ends without an error says in one line what it did.
-/

namespace FlashStrings

/-- What a run did. -/
structure RunSummary where
  /-- Whether the run was made to look for issues alone. -/
  isCheck : Bool
  /-- The number of files that were looked at. -/
  filesScanned : Nat
  /-- The number of strings in the generated files. -/
  emittedCount : Nat
  /-- The number of members of the list for automatic initialisation. -/
  memberCount : Nat
  /-- The generated files that were written; nothing for a run that may not
  write. -/
  written : Option (List String)
  deriving DecidableEq, Repr

namespace Report

/-- A run in one line. -/
def summaryLine (color : Bool) (s : RunSummary) : String :=
  let start := if s.isCheck then "Checked " else "Generated from "
  let members := if s.memberCount = 0 then "" else ", " ++ plural s.memberCount "auto-init string"
  let outputs := match s.written with
    | none => ""
    | some [] => " - outputs up to date"
    | some files => " - updated " ++ ", ".intercalate files
  Style.green.paint color successMark ++ " " ++
    Style.green.paint color
      (start ++ plural s.filesScanned "source file" ++ ", " ++ plural s.emittedCount "string" ++
        members ++ outputs)

/-- The report of a run: its issues and, without an error, its summary.  The errors are
counted in the order of reports. -/
def run (format : ReportFormat) (color : Bool) (l : List Issue) (s : RunSummary) : String :=
  let l := Issue.sort l
  issues format color l ++ if Issue.count .error l = 0 then unlines [summaryLine color s] else ""

end Report

end FlashStrings
