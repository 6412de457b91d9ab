import FlashStrings.SortedMap

/-!
# Values

A value is what an invocation gives to its identifier: a fallback text and texts
for single locales.  All texts are the content of C string literals.

The locale code `*` stands for every locale without a text of its own.  A value
in *normal form* has it only beside a fallback with another text.
`Value.normalizeWildcard` brings a value into that form, and `Value.textFor`,
the text that a locale gets, is the same before and after.
-/

namespace FlashStrings

/-- The locale code for every locale without a text of its own. -/
def wildcardLocale : String := "*"

/-- The texts of one invocation. -/
structure Value where
  /-- The text for locales that have no text of their own. -/
  fallback : Option String := none
  /-- The texts of single locales, by code. -/
  locales : TextMap String := ∅
  deriving DecidableEq, Repr

namespace Value

instance : Inhabited Value := ⟨{}⟩

/-- Whether the invocation gave no text at all. -/
def isEmpty (v : Value) : Bool := v.fallback.isNone && v.locales.isEmpty

/-- The text for a locale: its own, else that of `*`, else the fallback. -/
def textFor (v : Value) (code : String) : Option String :=
  (v.locales.get? code <|> v.locales.get? wildcardLocale) <|> v.fallback

/-- Fold the text of `*` into the fallback: it is the fallback when there is
none, and says nothing when the two are equal. -/
def normalizeWildcard (v : Value) : Value :=
  match v.locales.get? wildcardLocale with
  | none => v
  | some text =>
    match v.fallback with
    | none => { fallback := some text, locales := v.locales.erase wildcardLocale }
    | some fallback =>
      if fallback = text then { v with locales := v.locales.erase wildcardLocale } else v

end Value

/-! ## Values in words -/

/-- A fallback and texts by locale in one line: `"Text", de: "Text"`. -/
def describeTexts (fallback : Option String) (locales : List (String × String)) : String :=
  let parts := (fallback.map fun text => s!"\"{text}\"").toList ++
    locales.map fun (code, text) => s!"{code}: \"{text}\""
  if parts.isEmpty then "(no value)" else ", ".intercalate parts

/-- A value in one line. -/
def Value.describe (v : Value) : String := describeTexts v.fallback v.locales.entries

example : ({ fallback := some "Price", locales := .ofList [("de", "Preis")] } : Value).describe =
    "\"Price\", de: \"Preis\"" := by decide

end FlashStrings
