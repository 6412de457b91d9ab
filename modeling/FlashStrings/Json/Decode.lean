import FlashStrings.Json.Read
import FlashStrings.SortedMap

/-!
# Values from JSON

Decoders for the shapes that files of the library have.  A record of named
fields is an object or an array of the fields in their order.  In an object
other members are skipped and a field may stand once; an array may end early,
and then the last fields are missing, but not hold more.  A map from texts is an
object, and of two members with one key the later counts.  One of several names
is a text, or an object with the name as its only key and nothing behind it.
-/

namespace FlashStrings

namespace Json

/-- A text. -/
def text? : Json → Option String
  | .text s => s
  | _ => none

/-- A truth value. -/
def bool? : Json → Option Bool
  | .bool b => some b
  | _ => none

/-- A natural number below a bound. -/
def below? (bound : Nat) : Json → Option Nat
  | .num (some n) => if n < bound then some n else none
  | _ => none

/-- A natural number of at most 64 bits. -/
def nat? (j : Json) : Option Nat := j.below? (UInt64.size)

/-- Nothing, or a text. -/
def textOrNull? : Json → Option (Option String)
  | .null => some none
  | j => j.text?.map some

/-- A list. -/
def list? {α : Type} (decode : Json → Option α) : Json → Option (List α)
  | .array items => items.mapM decode
  | _ => none

/-- The members of an object whose keys are all texts. -/
def members? : Json → Option (List (String × Json))
  | .object members => members.mapM fun (key, j) => key.map (·, j)
  | _ => none

/-- A map from texts. -/
def map? {α : Type} (decode : Json → Option α) (j : Json) : Option (TextMap α) := do
  let entries ← (← j.members?).mapM fun (key, j) => (decode j).map (key, ·)
  return .ofList entries

/-- One of several names, each with its meaning. -/
def oneOf? {α : Type} (meanings : List (String × α)) (j : Json) : Option α :=
  match j with
  | .object [(key, .null)] => key.bind (meanings.lookup ·)
  | j => j.text?.bind (meanings.lookup ·)

/-! ## Named fields -/

/-- The fields of a record that are there, by name. -/
abbrev Fields := List (String × Json)

/-- The fields of a record with the given field names. -/
def fields? (names : List String) : Json → Option Fields
  | .array items => if items.length ≤ names.length then some (names.zip items) else none
  | j => do
    let known := (← j.members?).filter fun (key, _) => names.contains key
    if (known.map (·.1)).eraseDups.length = known.length then some known else none

/-- A field that has to be there. -/
def Fields.required? {α : Type} (fields : Fields) (name : String) (decode : Json → Option α) :
    Option α :=
  (fields.lookup name).bind decode

/-- A field with a value for the case that it is missing. -/
def Fields.withDefault? {α : Type} (fields : Fields) (name : String) (missing : α)
    (decode : Json → Option α) : Option α :=
  match fields.lookup name with
  | some j => decode j
  | none => some missing

end Json

end FlashStrings
