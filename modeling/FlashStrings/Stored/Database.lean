import FlashStrings.Database
import FlashStrings.Json.Decode
import FlashStrings.Json.Write

/-!
# The database file

The database is stored as JSON.  Every type has an encoder and a decoder beside
each other.  Parts without content are left out where a reader takes their
absence for the same.

The file begins with the version of its layout.  `Database.ofText?` reads a file
of another version as an empty database.
-/

namespace FlashStrings

open Json (Fields)

/-- A member that is left out when there is nothing to say. -/
def memberIf (write : Bool) (name : String) (j : Json) : List (String × Json) :=
  if write then [(name, j)] else []

/-! ## Places and values -/

/-- A location as JSON. -/
def Location.toJson (l : Location) : Json :=
  .ofMembers [("filePath", .ofText l.file), ("line", .ofNat l.line), ("col", .ofNat l.col)]

/-- A location from JSON. -/
def Location.ofJson? (j : Json) : Option Location := do
  let fields ← j.fields? ["filePath", "line", "col"]
  return ⟨← fields.required? "filePath" Json.text?, ← fields.required? "line" Json.nat?,
    ← fields.required? "col" Json.nat?⟩

/-- A map from texts as JSON. -/
def TextMap.toJson {α : Type} (encode : α → Json) (m : TextMap α) : Json :=
  .ofMembers (m.entries.map fun (key, value) => (key, encode value))

/-- A value as JSON. -/
def Value.toJson (v : Value) : Json :=
  .ofMembers ((v.fallback.map fun text => ("default", Json.ofText text)).toList ++
    memberIf (!v.locales.isEmpty) "locales" (v.locales.toJson .ofText))

/-- A value from JSON. -/
def Value.ofJson? (j : Json) : Option Value := do
  let fields ← j.fields? ["default", "locales"]
  return {
    fallback := ← fields.withDefault? "default" none Json.textOrNull?
    locales := ← fields.withDefault? "locales" ∅ (Json.map? Json.text?) }

/-- A text with its place as JSON. -/
def SitedText.toJson (t : SitedText) : Json :=
  .ofMembers [("value", .ofText t.text), ("location", t.location.toJson)]

/-- A text with its place from JSON. -/
def SitedText.ofJson? (j : Json) : Option SitedText := do
  let fields ← j.fields? ["value", "location"]
  return ⟨← fields.required? "value" Json.text?, ← fields.required? "location" Location.ofJson?⟩

/-! ## Records and entries -/

/-- The kind of a record from JSON. -/
def RecordKind.ofJson? (j : Json) : Option RecordKind :=
  j.oneOf? (RecordKind.all.map fun kind => (kind.name, kind))

/-- A record as JSON. -/
def Record.toJson (r : Record) : Json :=
  .ofMembers [("identifier", .ofText r.identifier), ("kind", .ofText r.kind.name),
    ("value", r.value.toJson), ("location", r.location.toJson)]

/-- A record from JSON. -/
def Record.ofJson? (j : Json) : Option Record := do
  let fields ← j.fields? ["identifier", "kind", "value", "location"]
  return {
    identifier := ← fields.required? "identifier" Json.text?
    kind := ← fields.required? "kind" RecordKind.ofJson?
    value := ← fields.withDefault? "value" {} Value.ofJson?
    location := ← fields.required? "location" Location.ofJson? }

/-- The origin of an entry from JSON. -/
def Origin.ofJson? (j : Json) : Option Origin :=
  j.oneOf? (Origin.all.map fun origin => (origin.name, origin))

/-- A list of places as JSON. -/
def locationsToJson (l : List Location) : Json := .array (l.map Location.toJson)

/-- An entry as JSON. -/
def Entry.toJson (e : Entry) : Json :=
  .ofMembers <|
    [("identifier", .ofText e.identifier), ("origin", .ofText e.origin.name)] ++
    (e.fallback.map fun t => ("defaultValue", t.toJson)).toList ++
    memberIf (!e.locales.isEmpty) "locales" (e.locales.toJson SitedText.toJson) ++
    [("usageCount", .ofNat e.usageCount)] ++
    memberIf (!e.references.isEmpty) "references" (locationsToJson e.references) ++
    memberIf (!e.definitions.isEmpty) "definitions" (locationsToJson e.definitions) ++
    [("contentHash", .ofText e.contentHash)]

/-- A text with its place, or nothing, from JSON. -/
def SitedText.orNull? : Json → Option (Option SitedText)
  | .null => some none
  | j => (SitedText.ofJson? j).map some

/-- An entry from JSON. -/
def Entry.ofJson? (j : Json) : Option Entry := do
  let fields ← j.fields? ["identifier", "origin", "defaultValue", "locales", "usageCount",
    "references", "definitions", "contentHash"]
  return {
    identifier := ← fields.required? "identifier" Json.text?
    origin := ← fields.required? "origin" Origin.ofJson?
    fallback := ← fields.withDefault? "defaultValue" none SitedText.orNull?
    locales := ← fields.withDefault? "locales" ∅ (Json.map? SitedText.ofJson?)
    usageCount := ← fields.required? "usageCount" Json.nat?
    references := ← fields.withDefault? "references" [] (Json.list? Location.ofJson?)
    definitions := ← fields.withDefault? "definitions" [] (Json.list? Location.ofJson?)
    contentHash := ← fields.required? "contentHash" Json.text? }

/-! ## The file -/

/-- The version of the layout of the file. -/
def databaseVersion : Nat := 1

/-- The records of a file as JSON. -/
def FileRecords.toJson (f : FileRecords) : Json :=
  .ofMembers [("hash", .ofText f.hash), ("records", .array (f.records.map Record.toJson))]

/-- The records of a file from JSON. -/
def FileRecords.ofJson? (j : Json) : Option FileRecords := do
  let fields ← j.fields? ["hash", "records"]
  return {
    hash := ← fields.required? "hash" Json.text?
    records := ← fields.withDefault? "records" [] (Json.list? Record.ofJson?) }

namespace Database

/-- The database as JSON. -/
def toJson (db : Database) : Json :=
  .ofMembers [("version", .ofNat databaseVersion), ("fingerprint", .ofText db.fingerprint),
    ("files", db.files.toJson FileRecords.toJson),
    ("entries", .array (db.entries.map Entry.toJson)),
    ("autoInit", .array (db.autoInit.map Entry.toJson))]

/-- The database from JSON of the present version. -/
def ofJson? (j : Json) : Option Database := do
  let fields ← j.fields? ["version", "fingerprint", "files", "entries", "autoInit"]
  let _ ← fields.required? "version" (Json.below? (UInt32.size))
  return {
    fingerprint := ← fields.withDefault? "fingerprint" "" Json.text?
    files := ← fields.withDefault? "files" ∅ (Json.map? FileRecords.ofJson?)
    entries := ← fields.withDefault? "entries" [] (Json.list? Entry.ofJson?)
    autoInit := ← fields.withDefault? "autoInit" [] (Json.list? Entry.ofJson?) }

/-- The version that a file says it has. -/
def versionOf? (j : Json) : Option Nat := do
  (← j.fields? ["version"]).withDefault? "version" 0 (Json.below? (UInt32.size))

/-- The text of the file. -/
def toText (db : Database) : String := db.toJson.render ++ "\n"

/-- The database in the text of a file; a file of another version counts as
empty. -/
def ofText? (text : String) : Option Database := do
  let j ← Json.parse? text
  if (← versionOf? j) = databaseVersion then ofJson? j else some {}

end Database

end FlashStrings
