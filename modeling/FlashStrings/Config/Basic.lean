import FlashStrings.Config.Define
import FlashStrings.Glob.Pattern

/-!
# Settings of a project

The settings say which files are sources, where the outputs go and what they are
called.  They may also hold texts of their own, which count as definitions at the
place of the settings file.

`Config.check` accepts settings or says what is wrong with the first bad one.
-/

namespace FlashStrings

/-- Texts kept in the settings instead of the sources.  They are plain texts and
are escaped when they are used. -/
structure ConfigText where
  /-- The text for locales that have no text of their own. -/
  fallback : Option String := none
  /-- The texts of single locales, by code. -/
  locales : TextMap String := ∅
  deriving DecidableEq, Repr

/-- The settings of a project. -/
structure Config where
  /-- Paths and patterns of files that are left out. -/
  ignores : List String := []
  /-- Paths and patterns of directories and files to look at. -/
  includes : List String := ["src", "include", "lib"]
  extensions : List String := ["c", "cc", "cpp", "cxx", "h", "hh", "hpp", "hxx", "ino"]
  outputDir : String := "src/generated"
  declarationFile : String := "spgm_auto_strings.h"
  definitionFile : String := "spgm_auto_strings.cpp"
  database : String := ".spgm/database.json"
  /-- A header that the header includes; empty for none. -/
  includeFile : String := ""
  /-- What storage symbols begin with. -/
  symbolPrefix : String := "SPGM_"
  defines : List String := []
  /-- Whether entries that nothing uses are written too. -/
  addUnused : Bool := false
  /-- Whether identifiers without a text get a display text. -/
  autoValues : Bool := false
  strings : TextMap ConfigText := ∅
  deriving DecidableEq, Repr

/-- The name of the settings file. -/
def configFileName : String := ".spgmrc.json"

/-- What can be wrong with settings. -/
inductive ConfigError where
  | badIgnore (pattern : String) (error : Glob.Error)
  | badInclude (pattern : String) (error : Glob.Error)
  /-- The symbol prefix cannot begin a C name. -/
  | badSymbolPrefix (text : String)
  /-- The name of a file is blank. -/
  | blank (field : String)
  | badDefine (text : String)
  /-- A text belongs to something that is no identifier. -/
  | badIdentifier (text : String)
  /-- A text belongs to something that is no locale code. -/
  | badLocale (identifier code : String)
  | noFallback (identifier : String)
  deriving DecidableEq, Repr

/-- Why a define is refused. -/
def badDefineMessage (text : String) : String := s!"\"{text}\" is not NAME or NAME=VALUE"

/-- The error in words. -/
def ConfigError.message : ConfigError → String
  | .badIgnore pattern error =>
    s!"Invalid glob pattern in 'ignores': \"{pattern}\": " ++ error.message
  | .badInclude pattern error =>
    s!"Invalid glob pattern in 'includes': \"{pattern}\": " ++ error.message
  | .badSymbolPrefix text => s!"Invalid 'symbolPrefix': \"{text}\" must start a C identifier"
  | .blank field => s!"'{field}' must not be empty"
  | .badDefine text => "Invalid entry in 'defines': " ++ badDefineMessage text
  | .badIdentifier text => s!"Invalid identifier in 'strings': \"{text}\""
  | .badLocale identifier code => s!"Invalid locale code in 'strings.{identifier}': \"{code}\""
  | .noFallback identifier =>
    s!"'strings.{identifier}' needs a \"default\" or a \"*\" locale"

/-- Whether a text is a C name. -/
def isCName (text : String) : Bool :=
  text.toList.head?.any isNameStart && text.toList.all isNameChar

/-- What is wrong with the texts of an identifier. -/
def ConfigText.error? (identifier : String) (texts : ConfigText) : Option ConfigError :=
  if !isIdentifier identifier then some (.badIdentifier identifier)
  else
    match texts.locales.keys.find? (!isLocaleCode ·) with
    | some code => some (.badLocale identifier code)
    | none =>
      if texts.fallback.isNone && !texts.locales.contains wildcardLocale then
        some (.noFallback identifier)
      else none

namespace Config

/-- What is wrong with a pattern. -/
def patternError? (error : String → Glob.Error → ConfigError) (pattern : String) :
    Option ConfigError :=
  match Glob.parse pattern with
  | .ok _ => none
  | .error e => some (error pattern e)

/-- All that is wrong with the settings, in the order in which it is looked for. -/
def errors (c : Config) : List ConfigError :=
  c.ignores.filterMap (patternError? .badIgnore) ++
  (c.includes.filter Glob.isPattern).filterMap (patternError? .badInclude) ++
  (if isCName c.symbolPrefix then [] else [.badSymbolPrefix c.symbolPrefix]) ++
  ([("declarationFile", c.declarationFile), ("definitionFile", c.definitionFile),
      ("database", c.database)].filterMap fun (field, name) =>
    if (trim name.toList).isEmpty then some (.blank field) else none) ++
  (c.defines.filterMap fun text =>
    if (Define.parse? text).isSome then none else some (.badDefine text)) ++
  c.strings.entries.filterMap fun (identifier, texts) => texts.error? identifier

/-- Accept the settings or say what is wrong first. -/
def check (c : Config) : Except ConfigError Unit :=
  match c.errors with
  | [] => .ok ()
  | e :: _ => .error e

/-- The string defines of the settings and some more, which take precedence. -/
def stringDefines (c : Config) (more : List String) : Defines :=
  FlashStrings.stringDefines (c.defines ++ more)

end Config

end FlashStrings
