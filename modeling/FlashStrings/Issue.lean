import FlashStrings.Merge
import FlashStrings.Source.Scan

/-!
# Issues

An issue is a finding that is reported to the user.  Its rule, severity,
message, notes and places are functions of it, so every form of report tells the
same.

Issues are reported in the order of their places; at one place in the order of
their rules, then of their messages (`Issue.le`).
-/

namespace FlashStrings

/-- How bad an issue is.  A run with an error writes nothing. -/
inductive Severity where
  | error
  | warning
  deriving DecidableEq, Repr

/-- The severity as it is written in reports. -/
def Severity.name : Severity → String
  | .error => "error"
  | .warning => "warning"

/-- The rule that an issue breaks, in the order of reports. -/
inductive Rule where
  | parseError
  | conflict
  | localeConflict
  | unresolvedReference
  | unusedDefinition
  | ioError
  deriving DecidableEq, Repr

/-- The rule as it is written in reports. -/
def Rule.name : Rule → String
  | .parseError => "parse-error"
  | .conflict => "conflict"
  | .localeConflict => "locale-conflict"
  | .unresolvedReference => "unresolved-reference"
  | .unusedDefinition => "unused-definition"
  | .ioError => "io-error"

/-- A finding. -/
inductive Issue where
  | parseError (e : ParseError)
  /-- An identifier has two texts under one key. -/
  | conflict (c : Conflict)
  /-- An identifier is used and has no text for every locale. -/
  | unresolvedReference (identifier : String) (location : Location)
      (references : List Location) (locales : List String)
  /-- An identifier has a value and is not used. -/
  | unusedDefinition (identifier value : String) (location : Location)
      (definitions : List Location)
  | ioError (path message : String)
  deriving DecidableEq, Repr

/-- Where an issue points to. -/
inductive Place where
  | line (location : Location) (text : String)
  | site (location : Location)
  | file (path : String)
  deriving DecidableEq, Repr

/-- Another place that has to do with an issue. -/
structure RelatedSite where
  /-- What the place is. -/
  label : String
  location : Location
  deriving DecidableEq, Repr

namespace Issue

/-- The rule. -/
def rule : Issue → Rule
  | parseError _ => .parseError
  | conflict c => if c.locale.isSome then .localeConflict else .conflict
  | unresolvedReference .. => .unresolvedReference
  | unusedDefinition .. => .unusedDefinition
  | ioError .. => .ioError

/-- The severity. -/
def severity : Issue → Severity
  | unusedDefinition .. => .warning
  | _ => .error

/-- The place. -/
def place : Issue → Place
  | parseError e => .line e.location e.lineText
  | conflict c => .site c.incoming.location
  | unresolvedReference _ location _ _ => .site location
  | unusedDefinition _ _ location _ => .site location
  | ioError path _ => .file path

/-- The message in one line. -/
def message : Issue → String
  | parseError e => e.error.message
  | conflict c =>
    match c.locale with
    | none => c.identifier
    | some code => s!"{c.identifier} ({code})"
  | unresolvedReference identifier .. => identifier
  | unusedDefinition identifier .. => identifier
  | ioError _ message => message

/-- What there is to say besides the message. -/
def details? : Issue → Option String
  | parseError e => some s!"in {e.macroName}(...); the invocation is skipped"
  | conflict c =>
    let differs := s!"\"{c.incoming.text}\" differs from \"{c.existing.text}\" defined at " ++
      c.existing.location.render
    some (c.locale.elim differs fun code => s!"{code}: {differs}")
  | unresolvedReference _ _ _ locales =>
    if locales.isEmpty then some "no value is defined"
    else some ("no default value, only locales: " ++ ", ".intercalate locales)
  | unusedDefinition _ value .. => some s!"({value}) is not referenced"
  | ioError .. => none

/-- How to mend it. -/
def hint? : Issue → Option String
  | parseError e =>
    match e.error with
    | .missingValue =>
      some "definitions and auto-init entries need a default value or a `*` locale"
    | .invalidValue _ =>
      some "values must be string literals or string defines passed with -D"
    | .unexpectedValue _ => some "label the value with its locale, e.g. `de: \"...\"`"
    | _ => none
  | unresolvedReference .. =>
    some "add a default value or a `*` locale to one of the references"
  | _ => none

/-- The other places that have to do with it. -/
def related : Issue → List RelatedSite
  | conflict c => [⟨"first defined", c.existing.location⟩]
  | unresolvedReference _ location references _ =>
    (references.filter (· ≠ location)).map fun site => ⟨"referenced", site⟩
  | unusedDefinition _ _ location definitions =>
    (definitions.filter (· ≠ location)).map fun site => ⟨"defined", site⟩
  | _ => []

/-! ## Order -/

/-- The place of an issue as a location; a whole file stands before its lines. -/
def sortLocation (i : Issue) : Location :=
  match i.place with
  | .line location _ | .site location => location
  | .file path => ⟨path, 0, 0⟩

/-- Whether an issue is reported before or beside another. -/
def le (a b : Issue) : Bool :=
  let p := a.sortLocation
  let q := b.sortLocation
  (compare p.file q.file
    |>.then (compare p.line q.line)
    |>.then (compare p.col q.col)
    |>.then (compare a.rule.ctorIdx b.rule.ctorIdx)
    |>.then (compare a.message b.message)).isLE

/-- Issues in the order of reports. -/
def sort (issues : List Issue) : List Issue := issues.mergeSort le

/-- The number of issues of a severity. -/
def count (severity : Severity) (issues : List Issue) : Nat :=
  issues.countP (·.severity = severity)

/-- Whether there is an error among the issues. -/
def anyError (issues : List Issue) : Bool := issues.any (·.severity = .error)

end Issue

end FlashStrings
