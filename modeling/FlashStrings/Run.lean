import FlashStrings.Project
import FlashStrings.Usage

/-!
# Runs

A run scans the sources of a project, merges what they hold, and generates the
files.  Nothing is written.

The database of an earlier run helps in two ways.  A file with the same content
is not scanned again, as long as all else that affects a scan is the same.  And
entries that the database knows keep their order.
-/

namespace FlashStrings

/-- What a run tells on the way. -/
inductive Note where
  | usingConfig (p : Path)
  | noConfig
  /-- The records of the database are not used. -/
  | rescanning
  | warning (w : SourceWarning)
  | scanning (file : String)
  /-- Some identifiers got a display text. -/
  | autoValues (count : Nat)
  deriving DecidableEq, Repr

/-- The note as a line. -/
def Note.text (color : Bool) (n : Note) : String :=
  let note (text : String) := Style.boldCyan.paint color "note:" ++ " " ++ text
  match n with
  | .usingConfig p => note ("using " ++ p.text)
  | .noConfig => note s!"no {configFileName} found, using defaults"
  | .rescanning => note "rescanning all files"
  | .warning w => Style.boldYellow.paint color "warning:" ++ " " ++ w.message
  | .scanning file => note ("scanning " ++ file)
  | .autoValues count => note s!"auto values for {count} identifier(s)"

/-- What a source gave to a run. -/
structure FileScan where
  file : String
  records : FileRecords
  errors : List ParseError := []
  /-- Whether the records come from the database. -/
  isCached : Bool := false
  deriving DecidableEq, Repr

/-- What a run found. -/
structure Outcome where
  /-- The issues, in the order of reports. -/
  issues : List Issue
  database : Database
  generated : GeneratedFiles
  filesScanned : Nat
  /-- The number of sources whose records come from the database. -/
  filesCached : Nat
  /-- The number of entries in the generated files. -/
  emittedCount : Nat
  /-- The identifiers that got a display text. -/
  autoFilled : List String
  notes : List Note
  deriving DecidableEq, Repr

namespace Project

/-! ## Scanning -/

/-- Scan a source, or take its records from the database if its content did not
change.  `known` holds the records that may be taken. -/
def scanFile (p : Project) (t : FileTree) (known : TextMap FileRecords) (file : String) :
    Except Issue FileScan :=
  match t.read? (p.root.join file) with
  | none => .error (.ioError file "cannot read file")
  | some content =>
    let hash := sha256Hex content
    match (known.get? file).filter (·.hash = hash) with
    | some records => .ok { file, records, isCached := true }
    | none =>
      let found := scan { file, defines := p.defines } (Utf8.decodeLossy content)
      .ok { file, records := { hash, records := recordsOf found }, errors := errorsOf found }

/-- The texts of the settings as records of definitions. -/
def configRecords (p : Project) : List Record :=
  p.config.strings.entries.map fun (identifier, texts) =>
    let value : Value :=
      { fallback := texts.fallback.map escapeText, locales := texts.locales.map escapeText }
    { identifier, kind := .definition, value := value.normalizeWildcard
      location := ⟨p.configFile, 1, 1⟩ }

/-! ## Merging -/

/-- Take what a source gave into the database, and the issues that come up into
the list of issues. -/
def takeScan (state : Database × List Issue) (scanned : Except Issue FileScan) :
    Database × List Issue :=
  match scanned with
  | .error issue => (state.1, state.2 ++ [issue])
  | .ok s =>
    let (db, conflicts) := state.1.applyAll s.records.records
    ({ db with files := db.files.insert s.file s.records },
      state.2 ++ s.errors.map .parseError ++ conflicts.map .conflict)

/-- The database of all that the sources and the settings give, in the order of
an earlier database, and the issues that came up. -/
def merge (p : Project) (earlier : Database) (scans : List (Except Issue FileScan)) :
    Database × List Issue :=
  let (db, issues) := scans.foldl takeScan ({ fingerprint := p.fingerprint }, [])
  let (db, conflicts) := db.applyAll p.configRecords
  (db.orderLike earlier, issues ++ conflicts.map .conflict)

/-! ## The run -/

/-- Whether the records of an earlier database may be used. -/
def canReuse (p : Project) (earlier : Database) : Bool :=
  !p.force && earlier.fingerprint == p.fingerprint

/-- What is told about scans. -/
def scanNotes (scans : List (Except Issue FileScan)) : List Note :=
  scans.filterMap fun
    | .ok s => if s.isCached then none else some (.scanning s.file)
    | .error _ => none

/-- A run with the database of an earlier one. -/
def runAfter (p : Project) (t : FileTree) (earlier : Database) : Outcome :=
  let known := if p.canReuse earlier then earlier.files else ∅
  let scans := (p.sources.files t).map (p.scanFile t known)
  let (merged, issues) := p.merge earlier scans
  let filled := if p.config.autoValues then merged.autoFilled else []
  let db := if p.config.autoValues then merged.fillAutoValues else merged
  let emitted := db.entries.filter p.emits
  { issues := Issue.sort (issues ++ db.unresolvedIssues ++ db.unusedIssues)
    database := db
    generated := generateFiles p.emitSettings emitted db.autoInit
    filesScanned := scans.length
    filesCached := scans.countP fun
      | .ok s => s.isCached
      | .error _ => false
    emittedCount := emitted.length
    autoFilled := filled
    notes :=
      (if p.canReuse earlier || earlier.files.isEmpty then [] else [.rescanning]) ++
      (p.sources.warnings t).map .warning ++ scanNotes scans ++
      if filled.isEmpty then [] else [.autoValues filled.length] }

/-- A run. -/
def run (p : Project) (t : FileTree) : Except Failure Outcome :=
  (Database.load t p.databasePath).map (p.runAfter t)

end Project

end FlashStrings
