import FlashStrings.Command.Arguments
import FlashStrings.Outputs
import FlashStrings.Report.Summary

/-!
# Commands

A command looks at a tree of files and may change it.  Its answer holds what it
prints and how it ends.

* `init` writes the usual settings, unless there is a settings file.
* `generate` runs and writes the outputs, unless the run has errors.
* `check` runs and writes nothing.
* `query` shows entries of the database.
-/

namespace FlashStrings

/-- How a command ends. -/
inductive ExitStatus where
  | success
  /-- With an error that it reports. -/
  | failure
  | error
  deriving DecidableEq, Repr

/-- The status for the system. -/
def ExitStatus.code : ExitStatus → Nat
  | .success => 0
  | .failure => 1
  | .error => 2

/-- The status for a command line that is not obeyed. -/
def UsageError.status : UsageError → ExitStatus
  | .helpWanted | .versionWanted => .success
  | _ => .error

/-- What a command answers. -/
structure Answer where
  output : String := ""
  /-- What it tells besides. -/
  messages : String := ""
  failure : Option Failure := none
  status : ExitStatus := if failure.isSome then .error else .success
  deriving DecidableEq, Repr

/-- The lines of notes, if they are wanted. -/
def noteLines (color wanted : Bool) (notes : List Note) : String :=
  if wanted then unlines (notes.map (Note.text color)) else ""

/-- Which settings a project has. -/
def Project.configNote (p : Project) : Note := p.configPath.elim .noConfig .usingConfig

namespace Command

/-- The settings file of the working directory. -/
def initPath : Path := ⟨configFileName⟩

/-- Write the usual settings. -/
def performInit (color : Bool) (t : FileTree) : FileTree × Answer :=
  if t.has initPath then
    (t, { messages := Style.boldRed.paint color "error:" ++ s!" {configFileName} already exists\n"
          status := .failure })
  else
    match t.writable? initPath with
    | none => (t, { failure := some .unwritableConfig })
    | some place =>
      (t.put place (.file (Utf8.encode (Config.toText {}))),
        { output := Style.green.paint color Report.successMark ++ " " ++
            Style.green.paint color ("Created " ++ configFileName) ++ "\n" })

/-- The answer of a run that could be made; `written` are the generated files that
were written. -/
def runAnswer (color isCheck : Bool) (options : CommandOptions) (o : Outcome)
    (written : Option (List String)) : Answer where
  output := Report.run options.format color o.issues {
    isCheck
    filesScanned := o.filesScanned
    emittedCount := o.emittedCount
    memberCount := o.database.autoInit.length
    written }
  status := if 0 < Issue.count .error (Issue.sort o.issues) then .failure else .success

/-- Run and, if that is wanted and there is no error, write the outputs. -/
def performRun (color isCheck : Bool) (options : CommandOptions) (t : FileTree) :
    FileTree × Answer :=
  match Project.load t options.toProjectOptions with
  | .error failure => (t, { failure := some failure })
  | .ok p =>
    match p.run t with
    | .error failure =>
      (t, { messages := noteLines color options.verbose [p.configNote], failure := some failure })
    | .ok o =>
      let messages := noteLines color options.verbose (p.configNote :: o.notes)
      if isCheck then (t, { runAnswer color isCheck options o none with messages })
      else if Issue.anyError o.issues then
        (t, { runAnswer color isCheck options o (some []) with messages })
      else
        match p.write t o with
        | (t, .error failure) => (t, { messages, failure := some failure })
        | (t, .ok summary) =>
          let written := summary.written.map (·.relativeTo p.root)
          (t, { runAnswer color isCheck options o (some written) with messages })

/-- The answer to a query about a project. -/
def queryAnswer (color : Bool) (options : CommandOptions) (p : Project) (t : FileTree) :
    Except Failure String := do
  if !t.has p.databasePath then .error (.noDatabase p.databasePath)
  else
    let db ← Database.load t p.databasePath
    let found ← (db.find p.config.symbolPrefix options.pattern).mapError Failure.badPattern
    return Report.query color options.autoInit p.config.symbolPrefix options.pattern found

/-- Show entries of the database. -/
def performQuery (color : Bool) (options : CommandOptions) (t : FileTree) : Answer :=
  match Project.load t options.toProjectOptions with
  | .error failure => { failure := some failure }
  | .ok p =>
    let messages := noteLines color options.verbose [p.configNote]
    match queryAnswer color options p t with
    | .error failure => { messages, failure := some failure }
    | .ok output => { messages, output }

/-- Perform a command: the tree after it and its answer. -/
def perform (color : Bool) (t : FileTree) : Command → FileTree × Answer
  | init => performInit color t
  | generate options => performRun color false options t
  | check options => performRun color true options t
  | query options => (t, performQuery color options t)

end Command

end FlashStrings
