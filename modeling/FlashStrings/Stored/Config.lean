import FlashStrings.Config.Basic
import FlashStrings.Stored.Database

/-!
# The settings file

The settings are stored as JSON.  A field that is missing has its usual value,
and a field that the library does not know is skipped.
-/

namespace FlashStrings

open Json (Fields)

/-- Texts kept in the settings as JSON. -/
def ConfigText.toJson (texts : ConfigText) : Json :=
  .ofMembers ((texts.fallback.map fun text => ("default", Json.ofText text)).toList ++
    memberIf (!texts.locales.isEmpty) "locales" (texts.locales.toJson .ofText))

/-- Texts kept in the settings from JSON. -/
def ConfigText.ofJson? (j : Json) : Option ConfigText := do
  let fields ← j.fields? ["default", "locales"]
  return {
    fallback := ← fields.withDefault? "default" none Json.textOrNull?
    locales := ← fields.withDefault? "locales" ∅ (Json.map? Json.text?) }

namespace Config

/-- The settings as JSON. -/
def toJson (c : Config) : Json :=
  .ofMembers <|
    [("ignores", .ofTexts c.ignores), ("includes", .ofTexts c.includes),
      ("extensions", .ofTexts c.extensions), ("outputDir", .ofText c.outputDir),
      ("declarationFile", .ofText c.declarationFile),
      ("definitionFile", .ofText c.definitionFile), ("database", .ofText c.database),
      ("includeFile", .ofText c.includeFile), ("symbolPrefix", .ofText c.symbolPrefix),
      ("defines", .ofTexts c.defines), ("addUnused", .bool c.addUnused),
      ("autoValues", .bool c.autoValues)] ++
    memberIf (!c.strings.isEmpty) "strings" (c.strings.toJson ConfigText.toJson)

/-- The settings from JSON. -/
def ofJson? (j : Json) : Option Config := do
  let fields ← j.fields? ["ignores", "includes", "extensions", "outputDir", "declarationFile",
    "definitionFile", "database", "includeFile", "symbolPrefix", "defines", "addUnused",
    "autoValues", "strings"]
  let usual : Config := {}
  let texts (name : String) (missing : List String) : Option (List String) :=
    fields.withDefault? name missing (Json.list? Json.text?)
  let text (name missing : String) : Option String := fields.withDefault? name missing Json.text?
  return {
    ignores := ← texts "ignores" usual.ignores
    includes := ← texts "includes" usual.includes
    extensions := ← texts "extensions" usual.extensions
    outputDir := ← text "outputDir" usual.outputDir
    declarationFile := ← text "declarationFile" usual.declarationFile
    definitionFile := ← text "definitionFile" usual.definitionFile
    database := ← text "database" usual.database
    includeFile := ← text "includeFile" usual.includeFile
    symbolPrefix := ← text "symbolPrefix" usual.symbolPrefix
    defines := ← texts "defines" usual.defines
    addUnused := ← fields.withDefault? "addUnused" usual.addUnused Json.bool?
    autoValues := ← fields.withDefault? "autoValues" usual.autoValues Json.bool?
    strings := ← fields.withDefault? "strings" usual.strings (Json.map? ConfigText.ofJson?) }

/-- The text of the settings file. -/
def toText (c : Config) : String := c.toJson.render ++ "\n"

/-- The settings in the text of a file. -/
def ofText? (text : String) : Option Config := (Json.parse? text).bind ofJson?

end Config

end FlashStrings
