import FlashStrings.Failure
import FlashStrings.Stored.Config
import FlashStrings.Stored.Database

/-!
# Loading files

Loading the database and the settings from a tree of files.  A database that is
not there counts as empty.  The settings are looked for in a directory and in the
directories above it, up to one that holds a repository; without a file the
usual settings apply.
-/

namespace FlashStrings

/-- The database at a path. -/
def Database.load (t : FileTree) (p : Path) : Except Failure Database :=
  if t.has p then
    match t.readText? p with
    | none => .error (.unreadableDatabase p)
    | some text =>
      match Database.ofText? text with
      | none => .error (.malformedDatabase p)
      | some db => .ok db
  else .ok {}

namespace Config

/-- The directory that marks the root of a repository. -/
def repositoryMark : String := ".git"

/-- The settings file in the first of some directories that has one, if no
directory before it is the root of a repository. -/
def find? (t : FileTree) : List Path → Option Path
  | [] => none
  | p :: ps =>
    if t.has (p.join configFileName) then some (p.join configFileName)
    else if t.has (p.join repositoryMark) then none
    else find? t ps

/-- The settings that a file holds. -/
def loadFile (t : FileTree) (p : Path) : Except Failure Config := do
  let text ← (t.readText? p).elim (.error (.unreadableConfig p)) .ok
  let c ← (Config.ofText? text).elim (.error (.malformedConfig p)) .ok
  c.check.mapError Failure.badConfig
  return c

/-- The settings for a directory, and the file that holds them. -/
def load (t : FileTree) (start : Path) : Except Failure (Config × Option Path) :=
  match find? t start.ancestors with
  | none => .ok ({}, none)
  | some p => (loadFile t p).map (·, some p)

end Config

end FlashStrings
