/-!
# Locations

A place in a file of the project.  Files are named by their path below the
project root with `/` between the components; lines and columns count from one.
-/

namespace FlashStrings

/-- A place in a file. -/
structure Location where
  file : String
  /-- The line, from one. -/
  line : Nat
  /-- The column in characters, from one. -/
  col : Nat
  deriving DecidableEq, Repr, Inhabited

/-- A location as text, `file:line:col`. -/
def Location.render (l : Location) : String := s!"{l.file}:{l.line}:{l.col}"

end FlashStrings
