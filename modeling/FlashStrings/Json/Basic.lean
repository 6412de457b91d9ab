/-!
# JSON values

A JSON value as it is written: the members of an object keep their order and may
repeat a key.

The files of the library hold texts and natural numbers only.  A number with a
sign, a fraction or an exponent is kept as `num none`, and a text with a
surrogate that has no partner, which is no sequence of characters, as
`text none`.  Both are good where nothing is read from them.
-/

namespace FlashStrings

/-- A JSON value. -/
inductive Json where
  | null
  | bool (b : Bool)
  /-- A number; nothing for one that is no plain natural number. -/
  | num (n : Option Nat)
  /-- A text; nothing for one that is no sequence of characters. -/
  | text (s : Option String)
  | array (items : List Json)
  | object (members : List (Option String × Json))
  deriving Repr, Inhabited

namespace Json

/-- A text as a value. -/
def ofText (s : String) : Json := .text (some s)

/-- A number as a value. -/
def ofNat (n : Nat) : Json := .num (some n)

/-- A list of texts as a value. -/
def ofTexts (l : List String) : Json := .array (l.map ofText)

/-- An object with the given members. -/
def ofMembers (members : List (String × Json)) : Json :=
  .object (members.map fun (key, value) => (some key, value))

end Json

end FlashStrings
