import FlashStrings.Path
import FlashStrings.SortedMap
import FlashStrings.Text.Utf8

/-!
# Trees of files

A tree holds directories and files by the names that lead to them from the root.
It has no links, so a place has one list of names.

`FileTree.follow` walks along the texts of a path.  Every text, also one that
says nothing, has to be looked up in a directory, so `a.cpp/` and `a.cpp/.` lead
nowhere when `a.cpp` is a file, and `new/..` when there is no `new`.  The last
name need not be there, which is how a path names a file to be made.
-/

namespace FlashStrings

/-- What stands at a place of a tree. -/
inductive Node where
  | directory
  | file (content : Bytes)
  deriving DecidableEq, Repr

/-- A tree of files. -/
structure FileTree where
  /-- What stands at the places below the root, by the names that lead there. -/
  nodes : SortedMap (List String) Node := ∅
  /-- The place that relative paths begin at. -/
  workingPlace : List String := []
  deriving DecidableEq, Repr

namespace FileTree

/-! ## Places -/

/-- What stands at a place; the root is always there. -/
def node? (t : FileTree) (place : List String) : Option Node :=
  if place = [] then some .directory else t.nodes.get? place

/-- The tree with something put at a place. -/
def put (t : FileTree) (place : List String) (node : Node) : FileTree :=
  { t with nodes := t.nodes.insert place node }

/-- The tree without what stands at a place. -/
def erase (t : FileTree) (place : List String) : FileTree :=
  { t with nodes := t.nodes.erase place }

/-- What stands at a place and below it, with the names from there, each
directory before its members and members in the order of their names. -/
def below (t : FileTree) (place : List String) : List (List String × Node) :=
  t.nodes.entries.filterMap fun (names, node) =>
    if place.isPrefixOf names then some (names.drop place.length, node) else none

/-! ## Paths in a tree -/

/-- The place that a walk ends at, from a place along the texts of a path. -/
def follow (t : FileTree) (place : List String) : List String → Option (List String)
  | [] => some place
  | part :: parts =>
    if t.node? place = some .directory then
      if Path.isIdle part then t.follow place parts
      else if part = ".." then t.follow place.dropLast parts
      else t.follow (place ++ [part]) parts
    else none

/-- Where the walk along a path begins. -/
def start (t : FileTree) (p : Path) : List String := if p.isAbsolute then [] else t.workingPlace

/-- The place that a path names. -/
def resolve? (t : FileTree) (p : Path) : Option (List String) :=
  if p.text.isEmpty then none else t.follow (t.start p) p.parts

/-- What stands where a path leads. -/
def find? (t : FileTree) (p : Path) : Option Node := (t.resolve? p).bind t.node?

/-- Whether a path leads to something. -/
def has (t : FileTree) (p : Path) : Bool := (t.find? p).isSome

/-- Whether a path leads to a directory. -/
def hasDirectory (t : FileTree) (p : Path) : Bool := t.find? p == some .directory

/-- The content of the file that a path leads to. -/
def read? (t : FileTree) (p : Path) : Option Bytes :=
  match t.find? p with
  | some (.file content) => some content
  | _ => none

/-- The text of the file that a path leads to. -/
def readText? (t : FileTree) (p : Path) : Option String := (t.read? p).bind Utf8.decode?

/-- The absolute path, without dots and doubled slashes, of something that is
there. -/
def canonical? (t : FileTree) (p : Path) : Option Path := do
  let place ← t.resolve? p
  let _ ← t.node? place
  return ⟨"/" ++ "/".intercalate place⟩

/-- What stands at a path and below it, with the paths there: a directory before
its members, and members in the order of their names. -/
def walk (t : FileTree) (p : Path) : List (Path × Node) :=
  match t.resolve? p with
  | none => []
  | some place => (t.below place).map fun (names, node) => (names.foldl Path.join p, node)

/-- The files at a path and below it. -/
def files (t : FileTree) (p : Path) : List Path :=
  (t.walk p).filterMap fun (q, node) => if node = .directory then none else some q

/-- The directories and files below a path. -/
def descendants (t : FileTree) (p : Path) : List Path :=
  match t.resolve? p with
  | none => []
  | some place =>
    (t.below place).filterMap fun (names, _) =>
      if names.isEmpty then none else some (names.foldl Path.join p)

/-- The names of the members of the directory that a path leads to. -/
def members (t : FileTree) (p : Path) : List String :=
  match t.resolve? p with
  | none => []
  | some place =>
    (t.below place).filterMap fun (names, _) =>
      match names with
      | [name] => some name
      | _ => none

/-! ## Changes -/

/-- Make the directories that are missing on a walk.  The flag says whether the
walk went through; one that meets a file does not, and keeps what it made. -/
def makeDirectories (t : FileTree) (place : List String) : List String → FileTree × Bool
  | [] => (t, t.node? place = some .directory)
  | part :: parts =>
    if t.node? place = some .directory then
      if Path.isIdle part then t.makeDirectories place parts
      else if part = ".." then t.makeDirectories place.dropLast parts
      else
        let place := place ++ [part]
        match t.node? place with
        | none => (t.put place .directory).makeDirectories place parts
        | some _ => t.makeDirectories place parts
    else (t, false)

/-- The place of a file that may be written: its directory is there, and it is no
directory itself. -/
def writable? (t : FileTree) (p : Path) : Option (List String) :=
  (t.resolve? p).filter fun place => t.node? place ≠ some .directory

end FileTree

/-! ## Steps of writing -/

/-- One step of replacing a file. -/
inductive FileStep where
  /-- Make a directory and the directories above it. -/
  | makeDirectory (p : Path)
  | writeTemporary (p : Path) (content : Bytes)
  | replace (temporary p : Path)
  deriving DecidableEq, Repr

namespace FileStep

/-- The tree after the step, and whether it succeeded.  A temporary file that
cannot take the place of its file is removed. -/
def perform (t : FileTree) : FileStep → FileTree × Bool
  | makeDirectory p => t.makeDirectories (t.start p) p.parts
  | writeTemporary p content =>
    match t.writable? p with
    | some place => (t.put place (.file content), true)
    | none => (t, false)
  | replace temporary p =>
    match t.resolve? temporary with
    | none => (t, false)
    | some source =>
      match t.read? temporary, t.writable? p with
      | some content, some place => ((t.erase source).put place (.file content), true)
      | _, _ => (t.erase source, false)

/-- Perform steps until one fails: the tree then, and the step that failed. -/
def performAll (t : FileTree) : List FileStep → FileTree × Option FileStep
  | [] => (t, none)
  | s :: ss =>
    match s.perform t with
    | (t, true) => performAll t ss
    | (t, false) => (t, some s)

/-- What a step that failed could not do. -/
def message : FileStep → String
  | makeDirectory p => s!"Failed to create directory: {p.text}"
  | writeTemporary p _ => s!"Failed to write temp file: {p.text}"
  | replace _ p => s!"Failed to replace file: {p.text}"

/-- The temporary file of a file. -/
def temporary (p : Path) : Path := p.withFileName (p.fileName?.getD "" ++ ".tmp")

/-- The steps that give a file a content.  The file is replaced as a whole, so at
no time it holds a part of the content. -/
def ofContent (p : Path) (content : Bytes) : List FileStep :=
  (match p.parent? with
    | some above => if above.text.isEmpty then [] else [makeDirectory above]
    | none => []) ++
  [writeTemporary (temporary p) content, replace (temporary p) p]

/-- The steps that give a file a text; none when it holds that text. -/
def ofChange (t : FileTree) (p : Path) (text : String) : List FileStep :=
  if t.readText? p = some text then [] else ofContent p (Utf8.encode text)

end FileStep

example : FileStep.ofContent ⟨"/p/a.h"⟩ [0x41] = [.makeDirectory ⟨"/p"⟩,
    .writeTemporary ⟨"/p/a.h.tmp"⟩ [0x41], .replace ⟨"/p/a.h.tmp"⟩ ⟨"/p/a.h"⟩] := by decide

example : ((FileStep.performAll {} (FileStep.ofContent ⟨"/p/a.h"⟩ [0x41])).1.files ⟨"/"⟩) =
    [⟨"/p/a.h"⟩] := by decide

end FlashStrings
