import FlashStrings.Digest.Content
import FlashStrings.Record

/-!
# Entries

An entry is everything that is known about one identifier: its texts, each with
the place that gave it first, the places that use the identifier and the places
that give it a value.
-/

namespace FlashStrings

/-- Where the authority over an entry comes from. -/
inductive Origin where
  /-- A definition in a source or in the configuration. -/
  | fixed
  /-- References alone. -/
  | auto
  /-- The list for automatic initialisation. -/
  | autoInit
  deriving DecidableEq, Repr

/-- The origin as it is written in files. -/
def Origin.name : Origin → String
  | .fixed => "fixed"
  | .auto => "auto"
  | .autoInit => "auto-init"

/-- All origins. -/
def Origin.all : List Origin := [.fixed, .auto, .autoInit]

/-- The origin that a record gives to a new entry. -/
def RecordKind.origin : RecordKind → Origin
  | .definition => .fixed
  | .reference => .auto
  | .autoInit => .autoInit

/-- A text and the place that gave it. -/
structure SitedText where
  text : String
  location : Location
  deriving DecidableEq, Repr

/-- What is known about one identifier. -/
structure Entry where
  identifier : String
  origin : Origin
  /-- The text for locales without a text of their own. -/
  fallback : Option SitedText := none
  locales : TextMap SitedText := ∅
  usageCount : Nat := 0
  references : List Location := []
  /-- The places that gave a value, in the order they were met. -/
  definitions : List Location := []
  contentHash : String := ""
  deriving DecidableEq, Repr

namespace Entry

/-- The texts without their places. -/
def value (e : Entry) : Value :=
  { fallback := e.fallback.map (·.text), locales := e.locales.map (·.text) }

/-- The entry with the hash of its present texts. -/
def refreshHash (e : Entry) : Entry := { e with contentHash := e.value.contentHash }

/-- An entry without texts and places. -/
def blank (identifier : String) (origin : Origin) : Entry :=
  refreshHash { identifier, origin }

/-- Whether there is a text for every locale. -/
def isResolved (e : Entry) : Bool := e.fallback.isSome

/-- Whether some place uses the identifier. -/
def isReferenced (e : Entry) : Bool := e.usageCount > 0

/-- The texts in one line. -/
def describe (e : Entry) : String := e.value.describe

/-- The place to point at: where a value was given first, else the first use. -/
def firstLocation? (e : Entry) : Option Location := e.definitions.head?.or e.references.head?

@[simp] theorem value_refreshHash (e : Entry) : e.refreshHash.value = e.value := rfl

@[simp] theorem contentHash_refreshHash (e : Entry) :
    e.refreshHash.contentHash = e.value.contentHash := rfl

end Entry

end FlashStrings
