import FlashStrings.FileTree
import FlashStrings.Glob.Pattern

/-!
# Patterns in a tree of files

`Glob.expand` finds the paths that match a pattern component by component.  A
component without wildcards is not matched but joined, so it may also be a dot or
two dots.  A component with wildcards matches the members of a directory in the
order of their names; one that begins with a dot matches the directory itself and
the one above it too, before the members.  `**` goes through everything below a
directory.  At the end of a pattern it stands for the directories there, and
before another component for all the places where that one is matched.
-/

namespace FlashStrings

namespace Glob

/-- A component of a pattern for paths. -/
inductive PathPattern where
  | plain (text : String)
  | wild (tokens : List Token)
  /-- `**`. -/
  | anyDepth
  deriving DecidableEq, Repr

namespace PathPattern

/-- The text that tokens stand for when none of them is a wildcard. -/
def plainText? (tokens : List Token) : Option String :=
  (tokens.mapM plainChar?).map String.ofList
where
  /-- The character that a token stands for. -/
  plainChar? : Token → Option Char
    | .char c => some c
    | _ => none

/-- Tokens as a component. -/
def ofTokens (tokens : List Token) : PathPattern :=
  if tokens = [.anyComponents] then .anyDepth
  else
    match plainText? tokens with
    | some text => .plain text
    | none => .wild tokens

/-- Whether the component matches a name. -/
def holds (pattern : PathPattern) (name : String) : Bool :=
  match pattern with
  | plain text => name == text
  | wild tokens => matchesString tokens name
  | anyDepth => true

/-- The dots that a component with wildcards matches besides members: those above
the directory first. -/
def dots (tokens : List Token) : List String :=
  if tokens.head? = some (.char '.') then ["..", "."].filter (matchesString tokens) else []

/-- Components with `**` once where it stands several times in a row. -/
def collapse : List PathPattern → List PathPattern
  | .anyDepth :: .anyDepth :: patterns => collapse (.anyDepth :: patterns)
  | pattern :: patterns => pattern :: collapse patterns
  | [] => []

end PathPattern

open PathPattern in
/-- The paths that match components, from a path in a tree. -/
def expand (t : FileTree) : List PathPattern → Path → List Path
  | [], p => [p]
  | .plain text :: patterns, p =>
    let found := if text = "." || text = ".." then t.hasDirectory p else t.has (p.join text)
    if found then expand t patterns (p.join text) else []
  | .wild tokens :: patterns, p =>
    if t.hasDirectory p then
      let names := dots tokens ++ (t.members p).filter (matchesString tokens)
      names.flatMap fun name => expand t patterns (p.join name)
    else []
  | [.anyDepth], p => (t.descendants p).filter t.hasDirectory
  | .anyDepth :: pattern :: patterns, p =>
    (t.descendants p).flatMap fun q =>
      if q.fileName?.any pattern.holds then expand t patterns q else []

/-- The components of a pattern behind its leading slash.  A slash at the end is
no component. -/
def pathComponents (text : List Char) : List (List Char) :=
  let parts := cutAt '/' (text.drop 1)
  if parts.getLast? = some [] then parts.dropLast else parts

/-- The paths in a tree that match a pattern for absolute paths.  A slash at its
end stands for directories only. -/
def find (t : FileTree) (pattern : Path) : Except Error (List Path) := do
  let text := pattern.text.toList
  let _ ← readTokens [] 0 none text
  let patterns ← (pathComponents text).mapM (readTokens [] 0 none)
  let found := expand t (PathPattern.collapse (patterns.map PathPattern.ofTokens)) ⟨"/"⟩
  return if text.getLast? = some '/' then found.filter t.hasDirectory else found

end Glob

end FlashStrings
