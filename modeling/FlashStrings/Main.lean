import FlashStrings.Command.Perform

/-!
# The program

The outer layer: it reads the files that a command may look at into a tree,
performs the command on the tree, carries out what changed, and prints the
answer.  All decisions are made by `Command.ofArguments` and `Command.perform`.
-/

namespace FlashStrings

namespace Program

/-- The text for a command line without a command. -/
def helpText : String := unlines [
  "Usage: spgm [COMMAND]",
  "",
  "Commands:",
  "  generate  Scan sources and write the generated string files and database",
  "  check     Scan sources and report findings without writing anything",
  "  query     Show identifiers stored in the database",
  "  init      Initialize a new .spgmrc.json configuration file",
  "  help      Print this message",
  "",
  "Options of generate, check and query:",
  "      --source-root <DIR>      Project root directory",
  "      --output-dir <DIR>       Directory of the generated files",
  "      --database <FILE>        Database file",
  "  -D, --define <NAME[=VALUE]>  Define, also for string values",
  "      --force                  Rescan every file",
  "      --format <FORMAT>        full or compact",
  "  -v, --verbose                Enable verbose output"]

/-- The version. -/
def versionText : String := "spgm 0.4.0\n"

/-- What is said about a command line that is not obeyed. -/
def usageText : UsageError → String
  | .unknownArgument => "error: unexpected argument\n"
  | .invalidValue => "error: invalid or missing value\n"
  | .argumentConflict => "error: an option is given twice\n"
  | .invalidSubcommand => "error: unrecognized subcommand\n"
  | .tooManyValues => "error: unexpected value\n"
  | .helpWanted => helpText
  | .versionWanted => versionText

/-- What is said about the causes of failures. -/
def causeText : FailureCause → String
  | .fileSystem => "the file system refused"
  | .json => "not the JSON that is expected"

/-- The text of a place for the system. -/
def placeText (place : List String) : String := "/" ++ "/".intercalate place

/-- The names on an absolute path. -/
def placeOf (text : String) : List String :=
  (⟨text⟩ : Path).components.filterMap fun
    | .name text => some text
    | _ => none

/-- Read a file, or a directory with all below it, into a tree. -/
partial def readBelow (t : FileTree) (place : List String) : IO FileTree := do
  let text := placeText place
  try
    let members ← (← IO.FS.realPath text).readDir
    let mut t := if place.isEmpty then t else t.put place .directory
    for member in members do
      t ← readBelow t (place ++ [member.fileName])
    return t
  catch _ =>
    try
      return t.put place (.file (← IO.FS.readBinFile text).toList)
    catch _ => return t

/-- Read the directories above a place into a tree, with the marks that may stand
in them. -/
def readAbove (t : FileTree) (place : List String) : IO FileTree := do
  let mut t := t
  for n in List.range (place.length + 1) do
    let above := place.take n
    unless above.isEmpty do
      t := t.put above .directory
    for mark in [configFileName, Config.repositoryMark] do
      try
        let content ← IO.FS.readBinFile (placeText (above ++ [mark]))
        t := t.put (above ++ [mark]) (.file content.toList)
      catch _ =>
        try
          let _ ← (← IO.FS.realPath (placeText (above ++ [mark]))).readDir
          t := t.put (above ++ [mark]) .directory
        catch _ => pure ()
  return t

/-- The options of a command. -/
def optionsOf : Command → ProjectOptions
  | .init => {}
  | .generate o | .check o | .query o => o.toProjectOptions

/-- Read what a command may look at: the root of the project with all below it,
and the directories above it. -/
def readTree (c : Command) : IO FileTree := do
  let here := placeOf (← IO.currentDir).toString
  let t ← readAbove {} here
  let t := { t with workingPlace := here }
  try
    let root := placeOf (← IO.FS.realPath ((optionsOf c).sourceRoot.getD ".")).toString
    readBelow (← readAbove t root.dropLast) root
  catch _ => return t

/-- Carry out what changed between two trees. -/
def writeChanges (old new : FileTree) : IO Unit := do
  for (place, _) in old.nodes.entries do
    if (new.node? place).isNone then IO.FS.removeFile (placeText place)
  for (place, node) in new.nodes.entries do
    if old.node? place ≠ some node then
      match node with
      | .directory => IO.FS.createDirAll (placeText place)
      | .file content =>
        let temporary := placeText place ++ ".tmp"
        IO.FS.writeBinFile temporary ⟨content.toArray⟩
        IO.FS.rename temporary (placeText place)

/-- Perform a command and print its answer. -/
def perform (color : Bool) (c : Command) : IO UInt32 := do
  let old ← readTree c
  let (new, answer) := c.perform color old
  writeChanges old new
  IO.eprint answer.messages
  IO.print answer.output
  if let some failure := answer.failure then
    IO.eprintln ("Error: " ++ failure.message causeText)
  return answer.status.code.toUInt32

end Program

end FlashStrings

/-- Obey the command line. -/
def main (args : List String) : IO UInt32 := do
  match FlashStrings.Command.ofArguments args with
  | .ok none =>
    IO.print FlashStrings.Program.helpText
    return 0
  | .ok (some command) =>
    let color := (← IO.getEnv "NO_COLOR").isNone && (← (← IO.getStdout).isTty)
    FlashStrings.Program.perform color command
  | .error e =>
    if e.status = .success then IO.print (FlashStrings.Program.usageText e)
    else IO.eprint (FlashStrings.Program.usageText e)
    return e.status.code.toUInt32
