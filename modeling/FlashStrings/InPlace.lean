import FlashStrings.IndexedDatabase

/-!
# Merging in place

The entry that a candidate is merged into is changed step by step.  A step that
fails leaves the entry as the steps before it made it, so nothing but the order of
the steps keeps a rejected candidate from being taken in part.

`Entry.merge` and `IndexedDatabase.apply` answer with the entry and the database
that a candidate which is taken leads to.  The two forms agree
(`Proofs/IndexedDatabase/InPlace`).
-/

namespace FlashStrings

/-- What a comparison of the keys of an entry and a candidate found. -/
structure Comparison where
  /-- The keys that hold different texts. -/
  conflicts : List Conflict := []
  /-- The candidate gives a fallback and the entry has none. -/
  fallbackIsNew : Bool := false
  /-- The texts for locale codes that the entry does not have. -/
  newLocales : List (String × String) := []

namespace Entry

/-- The conflict of an entry and a candidate under a key. -/
def conflictAt (e : Entry) (c : Candidate) (locale : Option String) (existing : SitedText)
    (text : String) : Conflict :=
  { identifier := e.identifier, locale, existing, incoming := ⟨text, c.location⟩ }

/-- Compare the fallbacks. -/
def compareFallback (e : Entry) (c : Candidate) : Comparison :=
  match e.fallback, c.value.fallback with
  | some existing, some text =>
    if existing.text ≠ text then { conflicts := [e.conflictAt c none existing text] } else {}
  | none, some _ => { fallbackIsNew := true }
  | _, none => {}

/-- Compare the texts for one locale code, after other keys. -/
def compareLocale (e : Entry) (c : Candidate) (found : Comparison) :
    String × String → Comparison
  | (code, text) =>
    match e.locales.get? code with
    | some existing =>
      if existing.text ≠ text then
        { found with conflicts := found.conflicts ++ [e.conflictAt c (some code) existing text] }
      else found
    | none => { found with newLocales := found.newLocales ++ [(code, text)] }

/-- Compare all keys of the candidate. -/
def compareKeys (e : Entry) (c : Candidate) : Comparison :=
  c.value.locales.entries.foldl (e.compareLocale c) (e.compareFallback c)

/-- Put in the texts that a comparison found to be new, one after the other. -/
def takeInPlace (c : Candidate) (found : Comparison) : EStateM (List Conflict) Entry Unit := do
  if found.fallbackIsNew then
    modify fun e => { e with fallback := c.value.fallback.map (⟨·, c.location⟩) }
  found.newLocales.forM fun (code, text) =>
    modify fun e => { e with locales := e.locales.insert code ⟨text, c.location⟩ }
  modify refreshHash
  modify (·.promote c)
  modify (·.account c)

/-- Merge a candidate into a regular entry. -/
def mergeInPlace (c : Candidate) : EStateM (List Conflict) Entry Unit := do
  let e ← get
  if c.value.isEmpty || c.value.contentHash == e.contentHash then
    modify (·.promote c)
    modify (·.account c)
  else
    let found := e.compareKeys c
    if !found.conflicts.isEmpty then throw found.conflicts
    takeInPlace c found

/-- Merge a candidate into a member of the list for automatic initialisation. -/
def mergeMemberInPlace (c : Candidate) : EStateM (List Conflict) Entry Unit := do
  let e ← get
  if c.value.contentHash == e.contentHash then modify (·.account c)
  else
    throw [{
      identifier := e.identifier
      locale := none
      existing := ⟨e.describe, e.firstLocation?.getD c.location⟩
      incoming := ⟨c.value.describe, c.location⟩ }]

end Entry

/-- How the change of a part ends, as the end of a change of the whole that puts the
part back. -/
def endOfWhole {ε σ τ α : Type} (whole : σ → τ) : EStateM.Result ε σ α → EStateM.Result ε τ α
  | .ok a part => .ok a (whole part)
  | .error new part => .error new (whole part)

/-- Change the entry at the place of its identifier, or append a new one and note its
place.  There is no answer if the place is not in the list. -/
def changeAtPlace (merge : Candidate → EStateM (List Conflict) Entry Unit) (identifier : String)
    (c : Candidate) (es : List Entry) (places : TextMap Nat) :
    Option (EStateM.Result (List Conflict) (List Entry × TextMap Nat) Unit) :=
  match places.get? identifier with
  | some i => es[i]?.map fun e => endOfWhole (fun e => (es.set i e, places)) ((merge c).run e)
  | none => some (.ok () (es ++ [.create identifier c], places.insert identifier es.length))

/-- Take a record into the list that its kind belongs to, in place. -/
def IndexedDatabase.applyInPlace (db : IndexedDatabase) (r : Record) :
    Option (EStateM.Result (List Conflict) IndexedDatabase Unit) :=
  match r.kind with
  | .autoInit =>
    (changeAtPlace Entry.mergeMemberInPlace r.identifier r.candidate db.database.autoInit
      db.memberPlaces).map <| endOfWhole fun (autoInit, memberPlaces) =>
        { db with database := { db.database with autoInit }, memberPlaces }
  | .definition | .reference =>
    (changeAtPlace Entry.mergeInPlace r.identifier r.candidate db.database.entries
      db.entryPlaces).map <| endOfWhole fun (entries, entryPlaces) =>
        { db with database := { db.database with entries }, entryPlaces }

end FlashStrings
