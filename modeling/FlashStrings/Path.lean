import FlashStrings.Text.Trim

/-!
# Paths

A path is kept as it is spelled, since messages show it that way.  What it means
is in its components.  Slashes separate them; empty components and inner dots
say nothing, and two dots are kept, for only a tree of files can tell where they
lead.

Two paths are compared and one path is found below another by components, so
`src//a.cpp` and `src/./a.cpp` are the same path and `src` is not above `srcs`.
-/

namespace FlashStrings

/-- A path, as it is spelled. -/
structure Path where
  text : String
  deriving DecidableEq, Repr

/-- A component of a path. -/
inductive PathComponent where
  /-- The slash that an absolute path begins with. -/
  | root
  | current
  | parent
  | name (text : String)
  deriving DecidableEq, Repr

/-- The component as text. -/
def PathComponent.text : PathComponent → String
  | root => "/"
  | current => "."
  | parent => ".."
  | name text => text

namespace Path

/-- Whether the path begins at the root. -/
def isAbsolute (p : Path) : Bool := p.text.toList.head? == some '/'

/-! ## Components -/

/-- The texts between the slashes. -/
def parts (p : Path) : List String := (cutAt '/' p.text.toList).map String.ofList

/-- Whether a text between slashes says nothing. -/
def isIdle (part : String) : Bool := part == "" || part == "."

/-- The components of texts between slashes, the first one of a path apart. -/
def innerComponents (parts : List String) : List PathComponent :=
  (parts.filter (!isIdle ·)).map fun part => if part = ".." then .parent else .name part

/-- The components. -/
def components (p : Path) : List PathComponent :=
  match p.parts with
  | "" :: part :: parts => .root :: innerComponents (part :: parts)
  | "." :: parts => .current :: innerComponents parts
  | parts => innerComponents parts

/-- Whether two paths have the same components. -/
def sameAs (p q : Path) : Bool := p.components == q.components

/-- Whether the path is another path or lies below it. -/
def isBelow (p base : Path) : Bool := base.components.isPrefixOf p.components

/-- The path below a base, with one slash between its components; a path that
does not lie below the base is taken as a whole. -/
def relativeTo (p base : Path) : String :=
  let rest :=
    if p.isBelow base then p.components.drop base.components.length else p.components
  "/".intercalate ((rest.filter (· != .current)).map PathComponent.text)

/-! ## Building paths -/

/-- A path from this one; an absolute path stands for itself. -/
def join (p : Path) (tail : String) : Path :=
  if (⟨tail⟩ : Path).isAbsolute || p.text.isEmpty then ⟨tail⟩
  else if p.text.toList.getLast? == some '/' then ⟨p.text ++ tail⟩
  else ⟨p.text ++ "/" ++ tail⟩

/-- Remove the texts at the end that say nothing, from a path whose texts stand
last one first. -/
def dropIdle : List String → List String
  | part :: next :: parts => if isIdle part then dropIdle (next :: parts) else part :: next :: parts
  | parts => parts

/-- The path of texts between slashes, last one first. -/
def ofReversedParts : List String → Path
  | [""] => ⟨"/"⟩
  | parts => ⟨"/".intercalate parts.reverse⟩

/-- The path without its last component; nothing for the root and for a path
without components. -/
def parent? (p : Path) : Option Path :=
  match dropIdle p.parts.reverse with
  | [] | [""] => none
  | _ :: parts => some (ofReversedParts (dropIdle parts))

/-- The name that the path ends with. -/
def fileName? (p : Path) : Option String :=
  match p.components.getLast? with
  | some (.name text) => some text
  | _ => none

/-- The path with another name at its end. -/
def withFileName (p : Path) (name : String) : Path :=
  if p.fileName?.isSome then (p.parent?.getD ⟨""⟩).join name else p.join name

/-- What stands behind the last dot of the name that the path ends with, unless
the name begins there. -/
def extension? (p : Path) : Option String := do
  let name := (← p.fileName?).toList
  let ending := (name.reverse.takeWhile (· != '.')).reverse
  if ending.length + 1 < name.length then some (String.ofList ending) else none

/-- The path and the paths above it, without their last components one after the
other. -/
def ancestors (p : Path) : List Path :=
  upward p.components.length p
where
  /-- A path and at most so many paths above it. -/
  upward : Nat → Path → List Path
    | 0, p => [p]
    | n + 1, p => p :: p.parent?.elim [] (upward n)

end Path

example : (⟨"./a//b/.."⟩ : Path).components = [.current, .name "a", .name "b", .parent] := by
  decide
example : (⟨"/p/./x"⟩ : Path).parent? = some ⟨"/p"⟩ := by decide
example : (⟨"/a"⟩ : Path).parent? = some ⟨"/"⟩ := by decide
example : (⟨"src/.h"⟩ : Path).extension? = none := by decide
example : (⟨"/p/./src/a.h"⟩ : Path).relativeTo ⟨"/p"⟩ = "src/a.h" := by decide

end FlashStrings
