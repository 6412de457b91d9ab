import FlashStrings.Database
import FlashStrings.Issue

/-!
# Usage rules

Two rules look at the entries after all records have been taken.  An identifier
that is used needs a text for every locale.  An identifier with a value that
nothing uses is left out of the generated code, so that is only a warning.
-/

namespace FlashStrings

/-- The entry is used and has no text for every locale. -/
def Entry.unresolved? (e : Entry) : Option Issue :=
  if e.isReferenced && !e.isResolved then
    e.references.head?.map fun location =>
      .unresolvedReference e.identifier location e.references e.locales.keys
  else none

/-- The entry has a value and is not used. -/
def Entry.unused? (e : Entry) : Option Issue :=
  if e.isReferenced then none
  else
    e.definitions.head?.map fun location =>
      .unusedDefinition e.identifier e.describe location e.definitions

namespace Database

/-- The entries that are used and have no text for every locale. -/
def unresolvedIssues (db : Database) : List Issue := db.entries.filterMap Entry.unresolved?

/-- The entries that have a value and are not used. -/
def unusedIssues (db : Database) : List Issue := db.entries.filterMap Entry.unused?

end Database

end FlashStrings
