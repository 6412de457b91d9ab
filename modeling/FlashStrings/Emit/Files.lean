import FlashStrings.Emit.Declaration
import FlashStrings.Emit.LocaleNames

/-!
# The generated files

The header declares the storage symbol of every entry and the table of every
entry with texts by locale; the source defines them.  At run time the row of the
active locale is taken, else the row of `*`, else the last row of the table,
which has no code and holds the fallback.

The names besides the storage symbols begin with `spgm_`.  The files depend on
the entries and their order alone, not on places in sources.
-/

namespace FlashStrings

/-- What the generated files depend on besides the entries. -/
structure EmitSettings where
  /-- What storage symbols begin with. -/
  symbolPrefix : String := "SPGM_"
  /-- The name of the header, as the source includes it. -/
  declarationFile : String := "spgm_auto_strings.h"
  /-- A header that the header includes. -/
  includeFile : Option String := none
  deriving DecidableEq, Repr

/-- The texts of the two files. -/
structure GeneratedFiles where
  declaration : String
  definition : String
  deriving DecidableEq, Repr

/-- The storage symbol of an identifier. -/
def storageSymbol (symbolPrefix identifier : String) : String := symbolPrefix ++ identifier

/-- The table of an identifier. -/
def tableSymbol (identifier : String) : String := "spgm_locales_" ++ identifier

/-- The array for automatic initialisation. -/
def membersSymbol : String := "spgm_auto_init_strings"

/-- The first line of a generated file. -/
def banner : String := "// AUTO GENERATED FILE - DO NOT MODIFY"

/-- The line that includes a file. -/
def includeLine (file : String) : String := s!"#include \"{file}\""

/-! ## The header -/

/-- The types of the tables. -/
def typeLines : List String := [
  "#ifndef PROGMEM",
  "#define PROGMEM",
  "#endif",
  "",
  "#ifdef __cplusplus",
  "extern \"C\" \x7b",
  "#endif",
  "",
  "typedef struct \x7b",
  "    const char *locale;",
  "    const char *value;",
  "\x7d spgm_locale_entry_t;",
  "",
  "typedef struct \x7b",
  "    const char *name;",
  "    const char *value;",
  "    const spgm_locale_entry_t *locales;",
  "\x7d spgm_auto_init_t;"]

/-- The declarations of the header. -/
def headerDeclarations (symbolPrefix : String) (entries : List Entry) : List Declaration :=
  (if entries.isEmpty then [] else [.gap]) ++
  (entries.flatMap fun e =>
    .externText (storageSymbol symbolPrefix e.identifier) ::
      if e.locales.isEmpty then [] else [.externTable (tableSymbol e.identifier)]) ++
  [.gap, .externMembers membersSymbol]

/-- The text of the header. -/
def headerText (settings : EmitSettings) (entries : List Entry) : String :=
  unlines <|
    [banner, "", "#pragma once", "", "#include <stddef.h>"] ++
    settings.includeFile.toList.map includeLine ++ [""] ++ typeLines ++
    (headerDeclarations settings.symbolPrefix entries).flatMap Declaration.lines ++
    ["", "#ifdef __cplusplus", "\x7d", "#endif"]

/-! ## The source -/

/-- Symbols for the texts of an entry that differ from its fallback: each text
once, numbered from one in the order of `texts`.  `named` are the symbols given
so far. -/
def nameTexts (base : String) (fallback : Option String) (named : List (String × String)) :
    List String → List (String × String)
  | [] => named
  | text :: texts =>
    if fallback = some text || (named.lookup text).isSome then nameTexts base fallback named texts
    else nameTexts base fallback (named ++ [(text, s!"{base}_{named.length + 1}")]) texts

/-- The declarations of the texts by locale of an entry and of their table. -/
def tableDeclarations (names : List (String × String)) (shared : Bool) (e : Entry)
    (fallbackSymbol base table : String) : List Declaration :=
  let fallback := e.fallback.map (·.text)
  let texts := (tableOrder e.locales.keys).filterMap fun code =>
    (e.locales.get? code).map fun t => (code, t.text)
  let named := nameTexts base fallback [] (texts.map (·.2))
  let symbol (text : String) : String :=
    if fallback = some text then fallbackSymbol else (named.lookup text).getD fallbackSymbol
  named.map (fun (text, name) => .text false name text) ++
    [.table shared table (texts.map fun (code, text) => ⟨localeName names code, symbol text⟩)
      fallbackSymbol]

/-- The text of an entry for locales without one of their own. -/
def Entry.fallbackText (e : Entry) : String := (e.fallback.map (·.text)).getD ""

/-- The definitions of an entry. -/
def entryDeclarations (symbolPrefix : String) (names : List (String × String)) (e : Entry) :
    List Declaration :=
  let symbol := storageSymbol symbolPrefix e.identifier
  [.gap, .text true symbol e.fallbackText] ++
    if e.locales.isEmpty then []
    else
      tableDeclarations names true e symbol ("spgm_value_" ++ e.identifier)
        (tableSymbol e.identifier)

/-- The row of a member of the list for automatic initialisation. -/
def memberRow (index : Nat) (e : Entry) : MemberRow where
  identifier := s!"spgm_auto_init_{index}_name"
  text := s!"spgm_auto_init_{index}_value"
  locales := if e.locales.isEmpty then none else some s!"spgm_auto_init_{index}_locales"

/-- The definitions of a member of the list for automatic initialisation. -/
def memberDeclarations (names : List (String × String)) (index : Nat) (e : Entry) :
    List Declaration :=
  let row := memberRow index e
  [.text false row.identifier e.identifier, .text false row.text e.fallbackText] ++
    match row.locales with
    | none => []
    | some table => tableDeclarations names false e row.text row.text table

/-- The declarations of the source. -/
def sourceDeclarations (symbolPrefix : String) (entries members : List Entry) :
    List Declaration :=
  let names := localeNames (entries ++ members)
  (if names.isEmpty then [] else .gap :: names.map fun (code, name) => .text false name code) ++
  entries.flatMap (entryDeclarations symbolPrefix names) ++
  [.gap] ++
  (members.mapIdx (memberDeclarations names)).flatten ++
  [.members membersSymbol (members.mapIdx memberRow)]

/-- The text of the source. -/
def sourceText (settings : EmitSettings) (entries members : List Entry) : String :=
  unlines <|
    [banner, "", includeLine settings.declarationFile] ++
    (sourceDeclarations settings.symbolPrefix entries members).flatMap Declaration.lines

/-- The generated files for entries and members of the list for automatic
initialisation. -/
def generateFiles (settings : EmitSettings) (entries members : List Entry) : GeneratedFiles where
  declaration := headerText settings entries
  definition := sourceText settings entries members

end FlashStrings
