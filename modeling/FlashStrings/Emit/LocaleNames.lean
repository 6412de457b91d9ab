import FlashStrings.Entry

/-!
# Names of locale codes

The codes that the entries use are defined once, as texts with names of their
own.  A name is made from the letters and digits of its code; codes that would
get one name are told apart by a number.
-/

namespace FlashStrings

/-- Sorted codes as tables list them: the wildcard comes last. -/
def tableOrder (codes : List String) : List String :=
  codes.filter (· ≠ wildcardLocale) ++ codes.filter (· = wildcardLocale)

/-- The codes that some entries use, each once, as tables list them. -/
def usedCodes (entries : List Entry) : List String :=
  let codes := entries.flatMap fun e => e.locales.keys
  tableOrder (SortedMap.ofList (codes.map (·, ()))).keys

/-- A code as a part of a C name. -/
def codeName (code : String) : String :=
  if code = wildcardLocale then "any"
  else code.map fun c => if c.isAlphanum then c else '_'

/-- The first name that is not used: the base, or the base with a number from
two on. -/
def freshName (used : List String) (base : String) : String :=
  let numbered := (List.range (used.length + 1)).map fun i => s!"{base}_{i + 2}"
  ((base :: numbered).find? fun name => !used.contains name).getD base

/-- Names for codes.  `used` are the names given so far. -/
def nameCodes (used : List String) : List String → List (String × String)
  | [] => []
  | code :: codes =>
    let name := freshName used ("spgm_locale_" ++ codeName code)
    (code, name) :: nameCodes (name :: used) codes

/-- The codes that some entries use, with their names. -/
def localeNames (entries : List Entry) : List (String × String) :=
  nameCodes [] (usedCodes entries)

/-- The name of a code. -/
def localeName (names : List (String × String)) (code : String) : String :=
  (names.lookup code).getD "NULL"

end FlashStrings
