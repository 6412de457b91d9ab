import FlashStrings.Glob.Expand
import FlashStrings.Report.Style

/-!
# Source files

The sources of a project are the files with a known extension at or below the
included paths, apart from ignored and excluded ones.  They come in canonical
order: the includes in the order they are given, each walked with the members of
a directory in the order of their names.  A file that is reached twice under one
path counts once.
-/

namespace FlashStrings

/-- What makes a file a source. -/
structure SourceSettings where
  /-- The directory that all paths are taken from. -/
  base : Path
  /-- Directories, files and patterns to look at; the base itself if there are
  none. -/
  includes : List String
  /-- Directories and files to leave out, and patterns for relative paths. -/
  ignores : List String
  /-- The extensions, of either case. -/
  extensions : List String
  /-- Files that are no sources. -/
  excluded : List Path
  deriving DecidableEq, Repr

/-- What is strange about the settings. -/
inductive SourceWarning where
  | badIgnore (pattern : String) (error : Glob.Error)
  | badInclude (pattern : String) (error : Glob.Error)
  | missingInclude (p : Path)
  deriving DecidableEq, Repr

/-- The warning in words. -/
def SourceWarning.message : SourceWarning → String
  | .badIgnore pattern error => s!"Invalid ignore pattern '{pattern}': " ++ error.message
  | .badInclude pattern error => s!"Invalid glob pattern '{pattern}': " ++ error.message
  | .missingInclude p => s!"Include path does not exist: {p.text}"

namespace SourceSettings

/-- The paths and the warning that an include stands for. -/
def root (s : SourceSettings) (t : FileTree) (text : String) : List Path × Option SourceWarning :=
  let p := s.base.join text
  if Glob.isPattern text then
    match Glob.find t p with
    | .ok found => (found, none)
    | .error e => ([], some (.badInclude text e))
  else if t.has p then ([p], none)
  else ([], some (.missingInclude p))

/-- The paths to look at. -/
def roots (s : SourceSettings) (t : FileTree) : List Path :=
  if s.includes.isEmpty then [s.base] else s.includes.flatMap fun text => (s.root t text).1

/-- All that is strange about the settings. -/
def warnings (s : SourceSettings) (t : FileTree) : List SourceWarning :=
  ((s.ignores.filter Glob.isPattern).filterMap fun text =>
    match Glob.parse text with
    | .ok _ => none
    | .error e => some (.badIgnore text e)) ++
  s.includes.filterMap fun text => (s.root t text).2

/-- Whether a file has one of the extensions. -/
def hasExtension (s : SourceSettings) (p : Path) : Bool :=
  p.extension?.any fun ending => s.extensions.any (·.toLower == ending.toLower)

/-- Whether an ignored path or pattern covers a file. -/
def isIgnored (s : SourceSettings) (p : Path) : Bool :=
  s.ignores.any fun text =>
    if Glob.isPattern text then
      match Glob.parse text with
      | .ok tokens => Glob.matchesString tokens (p.relativeTo s.base)
      | .error _ => false
    else p.isBelow (s.base.join text)

/-- Whether a file at a path is a source. -/
def admits (s : SourceSettings) (p : Path) : Bool :=
  s.hasExtension p && !s.excluded.any p.sameAs && !s.isIgnored p

/-- The sources, by their paths below the base. -/
def files (s : SourceSettings) (t : FileTree) : List String :=
  (((s.roots t).flatMap t.files).filter s.admits).map (·.relativeTo s.base) |>.eraseDups

end SourceSettings

end FlashStrings
