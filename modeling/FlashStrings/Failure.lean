import FlashStrings.Config.Basic
import FlashStrings.FileTree
import FlashStrings.Query

/-!
# Failures

A failure ends a command before it can report anything.  `Failure.message` says
what could not be done; the part that the system or a reader of JSON has to say
about it is given by the caller.
-/

namespace FlashStrings

/-- What lies behind a failure and is not in its words. -/
inductive FailureCause where
  | fileSystem
  | json
  deriving DecidableEq, Repr

/-- Why a command cannot run. -/
inductive Failure where
  | noSourceRoot (p : Path)
  | unreadableConfig (p : Path)
  /-- The settings file holds no settings. -/
  | malformedConfig (p : Path)
  | badConfig (e : ConfigError)
  | badDefine (text : String)
  | unreadableDatabase (p : Path)
  /-- The database file holds no database. -/
  | malformedDatabase (p : Path)
  | noDatabase (p : Path)
  | badPattern (e : PatternError)
  /-- The outputs of a run with errors are not written. -/
  | runWithErrors
  | step (s : FileStep)
  | unwritableConfig
  deriving DecidableEq, Repr

/-- A text as it is quoted in messages about paths. -/
def quotedPath (text : String) : String :=
  "\"" ++ String.ofList (text.toList.flatMap escaped) ++ "\""
where
  /-- One character between the quotes. -/
  escaped (c : Char) : List Char :=
    match c with
    | '"' => ['\\', '"']
    | '\\' => ['\\', '\\']
    | '\'' => ['\\', '\'']
    | '\n' => ['\\', 'n']
    | '\r' => ['\\', 'r']
    | '\t' => ['\\', 't']
    | '\x00' => ['\\', '0']
    | c =>
      if isAsciiControl c then
        ['\\', 'u', '\x7b'] ++ Nat.toDigits 16 c.toNat ++ ['\x7d']
      else [c]

/-- The failure in words. -/
def Failure.message (cause : FailureCause → String) : Failure → String
  | .noSourceRoot p => s!"Source root not found: {p.text}: " ++ cause .fileSystem
  | .unreadableConfig p =>
    "Failed to read config file: " ++ quotedPath p.text ++ ": " ++ cause .fileSystem
  | .malformedConfig p =>
    "Failed to parse config file: " ++ quotedPath p.text ++ ": " ++ cause .json
  | .badConfig e => e.message
  | .badDefine text => badDefineMessage text
  | .unreadableDatabase p => s!"Failed to read database: {p.text}: " ++ cause .fileSystem
  | .malformedDatabase p => s!"Failed to parse database: {p.text}: " ++ cause .json
  | .noDatabase p => s!"no database at {p.text}, run `spgm generate` first"
  | .badPattern e => s!"Invalid pattern: \"{e.pattern}\": " ++ e.error.message
  | .runWithErrors => "refusing to write the outputs of a run with errors"
  | .step s => s.message ++ ": " ++ cause .fileSystem
  | .unwritableConfig => cause .fileSystem

end FlashStrings
