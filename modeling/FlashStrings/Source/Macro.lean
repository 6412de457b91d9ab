import FlashStrings.Record

/-!
# String macros

The names of the macros that make records, and what makes texts scan alike.
-/

namespace FlashStrings

/-- The macros of a kind. -/
def RecordKind.macroNames : RecordKind → List String
  | .definition => ["PROGMEM_STRING_DEF"]
  | .reference => ["SPGM", "FSPGM", "PSPGM"]
  | .autoInit => ["AUTO_STRING_DEF", "AUTO_INIT_SPGM"]

/-- The kind of a string macro. -/
def macroKind? (name : String) : Option RecordKind :=
  RecordKind.all.find? (·.macroNames.contains name)

/-- The macro around a block of auto-init members.  It makes no record of its
own. -/
def autoInitBlock : String := "FLASH_STRING_GENERATOR_AUTO_INIT"

/-- The revision of the scanner: it grows when a text may give other records. -/
def scannerRevision : Nat := 2

end FlashStrings
