import FlashStrings.Entry

/-!
# Merging

A record is merged into the entry of its identifier key by key.  The fallback is
one key and every locale code another; under each key an entry keeps the text
that came first.  The same text merges, a different text is a conflict.  A
record with a conflict under any key is rejected as a whole.

Members of the list for automatic initialisation are written out as whole rows,
so there only equal contents merge.
-/

namespace FlashStrings

/-- What a record offers to the entry of its identifier. -/
structure Candidate where
  origin : Origin
  value : Value
  location : Location
  isReference : Bool
  deriving DecidableEq, Repr

/-- A record as a candidate. -/
def Record.candidate (r : Record) : Candidate :=
  { origin := r.kind.origin, value := r.value, location := r.location,
    isReference := r.kind = .reference }

/-- Two texts under one key. -/
structure Conflict where
  identifier : String
  /-- The locale code; none for the fallback, or for a whole member of the list
  for automatic initialisation. -/
  locale : Option String
  /-- What the entry holds. -/
  existing : SitedText
  /-- What the record offers. -/
  incoming : SitedText
  deriving DecidableEq, Repr

/-! ## Keys -/

/-- The texts of a value by key: the fallback, then the locales in order. -/
def Value.texts (v : Value) : List (Option String × String) :=
  v.fallback.toList.map (none, ·) ++ v.locales.entries.map fun (code, text) => (some code, text)

/-- What an entry holds under a key. -/
def Entry.at? (e : Entry) : Option String → Option SitedText
  | none => e.fallback
  | some code => e.locales.get? code

/-- Put a text under a key unless one is there. -/
def Entry.offer (e : Entry) (key : Option String) (t : SitedText) : Entry :=
  if (e.at? key).isSome then e
  else
    match key with
    | none => { e with fallback := some t }
    | some code => { e with locales := e.locales.insert code t }

/-- The keys where an entry and a candidate differ, with both texts. -/
def Entry.conflicts (e : Entry) (c : Candidate) : List Conflict :=
  c.value.texts.filterMap fun (locale, text) => do
    let existing ← e.at? locale
    if existing.text = text then none
    else some { identifier := e.identifier, locale, existing, incoming := ⟨text, c.location⟩ }

/-! ## Merging -/

namespace Entry

/-- Take every text of the candidate whose key is free. -/
def adopt (e : Entry) (c : Candidate) : Entry :=
  c.value.texts.foldl (fun e (key, text) => e.offer key ⟨text, c.location⟩) e

/-- A definition has the authority over the entry. -/
def promote (e : Entry) (c : Candidate) : Entry :=
  if c.origin = .fixed then { e with origin := .fixed } else e

/-- Count a use, and note the place of a value. -/
def account (e : Entry) (c : Candidate) : Entry :=
  let e :=
    if c.isReference then
      { e with usageCount := e.usageCount + 1, references := e.references ++ [c.location] }
    else e
  if c.value.isEmpty then e else { e with definitions := e.definitions ++ [c.location] }

/-- The entry that the first candidate of an identifier makes. -/
def create (identifier : String) (c : Candidate) : Entry :=
  (((blank identifier c.origin).adopt c).refreshHash).account c

/-- Merge a candidate into a regular entry, or name every conflict. -/
def merge (e : Entry) (c : Candidate) : Except (List Conflict) Entry :=
  if c.value.isEmpty || c.value.contentHash == e.contentHash then .ok ((e.promote c).account c)
  else
    match e.conflicts c with
    | [] => .ok (((e.adopt c).refreshHash.promote c).account c)
    | conflicts => .error conflicts

/-- Merge a candidate into a member of the list for automatic initialisation. -/
def mergeMember (e : Entry) (c : Candidate) : Except (List Conflict) Entry :=
  if c.value.contentHash == e.contentHash then .ok (e.account c)
  else
    .error [{
      identifier := e.identifier
      locale := none
      existing := ⟨e.describe, e.firstLocation?.getD c.location⟩
      incoming := ⟨c.value.describe, c.location⟩ }]

end Entry

end FlashStrings
