import FlashStrings.Emit.Declaration
import FlashStrings.Issue
import FlashStrings.Report.Style
import FlashStrings.Text.Width

/-!
# Reports of issues

Issues are reported in order, in one of two forms.  The full form has a block
for each issue, with the line it points into where that is known, and a count at
the end.  The compact form has one line for each.
-/

namespace FlashStrings

/-- The form of a report. -/
inductive ReportFormat where
  | full
  | compact
  deriving DecidableEq, Repr

namespace Report

/-- The mark in front of a count of problems. -/
def failureMark : String := "✘"

/-- The mark in front of a success. -/
def successMark : String := "✓"

/-- How many other places are shown with an issue or an entry. -/
def shownSites : Nat := 3

/-- An ending that counts the places that are not shown. -/
def more (hidden : Nat) : String := if hidden = 0 then "" else s!" (and {hidden} more)"

/-- Where an issue points to, as text; a file without a line is its path. -/
def position (i : Issue) : String :=
  let at_ := i.sortLocation
  if at_.line = 0 then at_.file else at_.render

/-! ## The full form -/

/-- The style of a severity, without and with emphasis. -/
def severityStyle : Severity → Style × Style
  | .error => (.red, .boldRed)
  | .warning => (.yellow, .boldYellow)

/-- A line of a block behind the gutter. -/
def gutterLine (color : Bool) (gutter : Nat) (mark rest : String) : String :=
  padLeft gutter "" ++ " " ++ Style.blue.paint color mark ++ rest

/-- The line an issue points into, with a caret under the column. -/
def sourceLines (color : Bool) (gutter : Nat) (i : Issue) : List String :=
  match i.place with
  | .line location text =>
    let before := displayWidth (text.toList.take (location.col - 1))
    let caret := (severityStyle i.severity).1.paint color "^"
    [gutterLine color gutter "|" "",
      Style.blue.paint color (padLeft gutter (toString location.line)) ++ " " ++
        Style.blue.paint color "|" ++ " " ++ text,
      gutterLine color gutter "|" (" " ++ padLeft before "" ++ caret)]
  | _ => []

/-- A note of a block. -/
def noteLine (color : Bool) (gutter : Nat) (style : Style) (label text : String) : String :=
  gutterLine color gutter "=" (" " ++ style.paint color (label ++ ":") ++ " " ++ text)

/-- The other places of an issue; the last one shown counts the rest. -/
def relatedLines (color : Bool) (gutter : Nat) (i : Issue) : List String :=
  let shown := i.related.take shownSites
  shown.mapIdx fun index site =>
    let hidden := if index + 1 = shown.length then i.related.length - shown.length else 0
    noteLine color gutter .bold site.label (site.location.render ++ more hidden)

/-- The block of an issue. -/
def block (color : Bool) (gutter : Nat) (i : Issue) : List String :=
  [(severityStyle i.severity).2.paint color i.severity.name ++ s!": \"{i.message}\"  " ++
      Style.dimmedCyan.paint color i.rule.name,
    "  " ++ Style.blue.paint color "-->" ++ " " ++ position i] ++
  sourceLines color gutter i ++
  i.details?.toList.map (noteLine color gutter .bold "note") ++
  i.hint?.toList.map (noteLine color gutter .boldCyan "hint") ++
  relatedLines color gutter i ++
  [""]

/-- The width of the gutter: that of the greatest line number shown. -/
def gutterWidth (issues : List Issue) : Nat :=
  let numbers := issues.filterMap fun i =>
    match i.place with
    | .line location _ => some location.line
    | _ => none
  numbers.max?.elim 1 fun n => (toString n).length

/-- The line that counts the issues. -/
def countLine (color : Bool) (issues : List Issue) : String :=
  let errors := Issue.count .error issues
  let warnings := issues.length - errors
  let errorNoun := Style.red.paint color (if errors = 1 then "error" else "errors")
  let warningNoun := Style.yellow.paint color (if warnings = 1 then "warning" else "warnings")
  Style.red.paint color failureMark ++
    s!" {issues.length} problems ({errors} {errorNoun}, {warnings} {warningNoun})"

/-- The report in full form. -/
def full (color : Bool) (issues : List Issue) : String :=
  if issues.isEmpty then ""
  else
    let issues := Issue.sort issues
    unlines (issues.flatMap (block color (gutterWidth issues)) ++ [countLine color issues])

/-! ## The compact form -/

/-- The line of an issue: `file:line:col: severity[rule]: message`. -/
def compactLine (i : Issue) : String :=
  let sites := i.related.map (·.location.render)
  let also := if sites.isEmpty then "" else " (also: " ++ ", ".intercalate sites ++ ")"
  s!"{position i}: {i.severity.name}[{i.rule.name}]: {i.message}" ++ also

/-- The report in compact form. -/
def compact (issues : List Issue) : String := unlines ((Issue.sort issues).map compactLine)

/-- A report. -/
def issues (format : ReportFormat) (color : Bool) (l : List Issue) : String :=
  match format with
  | .full => full color l
  | .compact => compact l

end Report

end FlashStrings
