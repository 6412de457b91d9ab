import FlashStrings.Location
import FlashStrings.Value

/-!
# Records

A record is one invocation of a string macro that was read without error.  Its
kind is that of the macro.
-/

namespace FlashStrings

/-- What a string macro does with its identifier. -/
inductive RecordKind where
  | definition
  /-- It uses the string and may give a value on the way. -/
  | reference
  /-- It makes the string a member of the list for automatic initialisation. -/
  | autoInit
  deriving DecidableEq, Repr

/-- The kind as it is written in files. -/
def RecordKind.name : RecordKind → String
  | .definition => "definition"
  | .reference => "reference"
  | .autoInit => "auto-init"

/-- All kinds. -/
def RecordKind.all : List RecordKind := [.definition, .reference, .autoInit]

/-- One invocation of a string macro. -/
structure Record where
  /-- The identifier it is about. -/
  identifier : String
  /-- What it does. -/
  kind : RecordKind
  /-- The texts it gives. -/
  value : Value
  location : Location
  deriving DecidableEq, Repr

end FlashStrings
