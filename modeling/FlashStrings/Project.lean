import FlashStrings.Emit.Files
import FlashStrings.SourceFiles
import FlashStrings.Stored.Load

/-!
# Projects

A project is a directory with its settings: those of its settings file, with what
the user gave instead of them.  Relative paths are taken from its root.
-/

namespace FlashStrings

/-- What the user can give instead of settings. -/
structure ProjectOptions where
  /-- The root of the project; else the working directory. -/
  sourceRoot : Option String := none
  outputDir : Option String := none
  database : Option String := none
  /-- More defines. -/
  defines : List String := []
  /-- Whether to scan files that did not change. -/
  force : Bool := false
  deriving DecidableEq, Repr

/-- A project. -/
structure Project where
  root : Path
  config : Config
  configPath : Option Path := none
  defines : Defines := config.stringDefines []
  /-- Whether to scan files that did not change. -/
  force : Bool := false
  deriving DecidableEq, Repr

namespace Project

/-- The project that the options name. -/
def load (t : FileTree) (options : ProjectOptions) : Except Failure Project := do
  let sourceRoot : Path := ⟨options.sourceRoot.getD "."⟩
  let root ← (t.canonical? sourceRoot).elim (.error (.noSourceRoot sourceRoot)) .ok
  let (config, configPath) ← Config.load t root
  match options.defines.find? fun text => (Define.parse? text).isNone with
  | some text => .error (.badDefine text)
  | none =>
    let config := { config with
      outputDir := options.outputDir.getD config.outputDir
      database := options.database.getD config.database }
    return { root, config, configPath, force := options.force
             defines := config.stringDefines options.defines }

/-- The directory of the generated files. -/
def outputPath (p : Project) : Path := p.root.join p.config.outputDir

/-- The header. -/
def declarationPath (p : Project) : Path := p.outputPath.join p.config.declarationFile

/-- The source. -/
def definitionPath (p : Project) : Path := p.outputPath.join p.config.definitionFile

/-- The database file. -/
def databasePath (p : Project) : Path := p.root.join p.config.database

/-- What makes a file a source of the project.  The generated files are none. -/
def sources (p : Project) : SourceSettings where
  base := p.root
  includes := p.config.includes
  ignores := p.config.ignores
  extensions := p.config.extensions
  excluded := [p.declarationPath, p.definitionPath]

/-- The settings file as locations name it. -/
def configFile (p : Project) : String :=
  p.configPath.elim configFileName fun file => file.relativeTo p.root

/-- All that affects a scan besides the files, as a text. -/
def scanText (p : Project) : String :=
  s!"v{databaseVersion}.{scannerRevision}\n" ++
  String.join (RecordKind.all.map fun kind => ",".intercalate kind.macroNames ++ "\n") ++
  String.join (p.defines.entries.map fun (name, text) => s!"{name}={text}\n")

/-- The hash of all that affects a scan besides the files. -/
def fingerprint (p : Project) : String := sha256Hex (Utf8.encode p.scanText)

/-- What the generated files depend on besides the entries. -/
def emitSettings (p : Project) : EmitSettings where
  symbolPrefix := p.config.symbolPrefix
  declarationFile := p.config.declarationFile
  includeFile := if p.config.includeFile.isEmpty then none else some p.config.includeFile

/-- Whether an entry is written to the generated files. -/
def emits (p : Project) (e : Entry) : Bool :=
  e.isResolved && (e.isReferenced || p.config.addUnused)

end Project

end FlashStrings
