import FlashStrings.Database
import FlashStrings.Emit.Declaration
import FlashStrings.Glob.Pattern
import FlashStrings.Report.Issues

/-!
# Queries

A query finds the entries and the members of the list for automatic
initialisation whose identifiers match a pattern.  The pattern may begin with
the prefix of the storage symbols.  The matches are shown in full, or as
invocations to paste into a source.
-/

namespace FlashStrings

/-- A pattern that cannot be read. -/
structure PatternError where
  pattern : String
  error : Glob.Error
  deriving DecidableEq, Repr

/-- A pattern without the symbol prefix at its start. -/
def withoutPrefix (symbolPrefix pattern : String) : String :=
  if symbolPrefix.toList.isPrefixOf pattern.toList then
    String.ofList (pattern.toList.drop symbolPrefix.length)
  else pattern

/-- The entries, then the members, whose identifiers match a pattern. -/
def Database.find (db : Database) (symbolPrefix pattern : String) :
    Except PatternError (List Entry) :=
  let pattern := withoutPrefix symbolPrefix pattern
  match Glob.parse pattern with
  | .error error => .error { pattern, error }
  | .ok ts => .ok ((db.entries ++ db.autoInit).filter fun e => Glob.matchesString ts e.identifier)

namespace Report

/-- Some of the places of an entry in one line. -/
def sitesLine (label : String) (sites : List Location) : List String :=
  if sites.isEmpty then []
  else
    let shown := (sites.take shownSites).map Location.render
    ["  " ++ label ++ ": " ++ ", ".intercalate shown ++ more (sites.length - shownSites)]

/-- A text of an entry under its label, with its place. -/
def textLine (color : Bool) (label : String) (t : SitedText) : String :=
  s!"  {label}: \"{t.text}\"  " ++ Style.dimmed.paint color ("(" ++ t.location.render ++ ")")

/-- An entry in full. -/
def entryLines (color : Bool) (symbolPrefix : String) (e : Entry) : List String :=
  [Style.dimmed.paint color symbolPrefix ++ Style.bold.paint color e.identifier ++ "  " ++
      Style.cyan.paint color e.origin.name ++ "  " ++
      Style.dimmed.paint color s!"used {e.usageCount}x",
    match e.fallback with
    | some t => textLine color "default" t
    | none => "  default: " ++ Style.dimmed.paint color "(none)"] ++
  e.locales.entries.map (fun (code, t) => textLine color code t) ++
  sitesLine "defined" e.definitions ++
  sitesLine "referenced" e.references

/-- An entry as the invocation of a member of the list for automatic
initialisation. -/
def memberInvocation (e : Entry) : String :=
  let v := e.value
  let args := [e.identifier] ++ v.fallback.toList.map (fun text => s!"\"{text}\"") ++
    v.locales.entries.map fun (code, text) => s!"{code}: \"{text}\""
  "AUTO_STRING_DEF(" ++ ", ".intercalate args ++ ")"

/-- The answer to a query. -/
def query (color asMembers : Bool) (symbolPrefix pattern : String) (found : List Entry) : String :=
  unlines <|
    if found.isEmpty then [s!"No identifiers match \"{pattern}\""]
    else if asMembers then found.map memberInvocation
    else
      found.flatMap (entryLines color symbolPrefix) ++
        [Style.dimmed.paint color (plural found.length "identifier" ++ " matched")]

end Report

end FlashStrings
