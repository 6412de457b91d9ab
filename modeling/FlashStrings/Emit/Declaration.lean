import FlashStrings.Literal.Initializer

/-!
# C declarations

The generated files are lists of declarations.  A declaration defines or
declares at most one name of file scope (`Declaration.name?`), and its lines
follow from it (`Declaration.lines`).
-/

namespace FlashStrings

/-- A row of a table of texts by locale: the symbols of its code and its text. -/
structure LocaleRow where
  code : String
  text : String
  deriving DecidableEq, Repr

/-- A row of the array for automatic initialisation. -/
structure MemberRow where
  identifier : String
  /-- The symbol of the fallback text. -/
  text : String
  /-- The symbol of the table of texts by locale, if there is one. -/
  locales : Option String
  deriving DecidableEq, Repr

/-- A part of a generated file. -/
inductive Declaration where
  | gap
  /-- The declaration of a text that another file defines. -/
  | externText (name : String)
  /-- The declaration of a table of texts by locale that another file defines. -/
  | externTable (name : String)
  /-- The declaration of the array for automatic initialisation. -/
  | externMembers (name : String)
  /-- A text.  One that is not `shared` is seen in its file alone. -/
  | text (shared : Bool) (name content : String)
  /-- A table of texts by locale, with the symbol of the fallback text. -/
  | table (shared : Bool) (name : String) (rows : List LocaleRow) (fallback : String)
  /-- The array for automatic initialisation. -/
  | members (name : String) (rows : List MemberRow)
  deriving DecidableEq, Repr

namespace Declaration

/-- The name that is declared or defined. -/
def name? : Declaration → Option String
  | gap => none
  | externText name | externTable name | externMembers name => some name
  | text _ name _ | table _ name _ _ | members name _ => some name

/-- How the definition of a constant begins. -/
def constant (shared : Bool) : String := if shared then "const" else "static const"

/-- The lines of a declaration. -/
def lines : Declaration → List String
  | gap => [""]
  | externText name => [s!"extern const char {name}[] PROGMEM;"]
  | externTable name => [s!"extern const spgm_locale_entry_t {name}[] PROGMEM;"]
  | externMembers name => [s!"extern const spgm_auto_init_t {name}[] PROGMEM;"]
  | text shared name content =>
    [s!"{constant shared} char {name}[] PROGMEM = {initializerOf content};"]
  | table shared name rows fallback =>
    [s!"{constant shared} spgm_locale_entry_t {name}[] PROGMEM = \x7b"] ++
    rows.map (fun row => s!"    \x7b {row.code}, {row.text} \x7d,") ++
    [s!"    \x7b NULL, {fallback} \x7d", "\x7d;"]
  | members name rows =>
    [s!"{constant true} spgm_auto_init_t {name}[] PROGMEM = \x7b"] ++
    rows.map (fun row =>
      let locales := row.locales.getD "NULL"
      s!"    \x7b {row.identifier}, {row.text}, {locales} \x7d,") ++
    ["    \x7b NULL, NULL, NULL \x7d", "\x7d;"]

end Declaration

/-- Lines as a text. -/
def unlines (lines : List String) : String := String.join (lines.map (· ++ "\n"))

end FlashStrings
