import FlashStrings.Literal.PlainText
import FlashStrings.Merge

/-!
# The database

The database holds the entries in their order, the members of the list for
automatic initialisation in theirs, and for every scanned file the hash of its
content and the records found in it.

Entries are built from records alone.  `orderLike` gives them the order that an
earlier database had, and `fillAutoValues` gives display texts to identifiers
that are used but have no text.
-/

namespace FlashStrings

/-- What a scan found in one file. -/
structure FileRecords where
  hash : String
  records : List Record := []
  deriving DecidableEq, Repr

/-- The strings of a project. -/
structure Database where
  /-- The hash of all that affects a scan besides the files. -/
  fingerprint : String := ""
  files : TextMap FileRecords := ∅
  entries : List Entry := []
  /-- The members of the list for automatic initialisation. -/
  autoInit : List Entry := []
  deriving DecidableEq, Repr

/-- The position of the last entry of an identifier. -/
def position? (identifier : String) : List Entry → Option Nat
  | [] => none
  | e :: es =>
    match position? identifier es with
    | some i => some (i + 1)
    | none => if e.identifier = identifier then some 0 else none

/-- Merge a candidate into the entry of its identifier, or append a new one. -/
def mergeOrAppend (merge : Entry → Candidate → Except (List Conflict) Entry)
    (identifier : String) (c : Candidate) (es : List Entry) :
    Except (List Conflict) (List Entry) :=
  match (position? identifier es).bind fun i => es[i]?.map (i, ·) with
  | some (i, e) => (merge e c).map (es.set i ·)
  | none => .ok (es ++ [.create identifier c])

namespace Database

/-- The entry of an identifier. -/
def lookup? (db : Database) (identifier : String) : Option Entry :=
  (position? identifier db.entries).bind (db.entries[·]?)

/-- Merge a candidate into the entries. -/
def upsert (db : Database) (identifier : String) (c : Candidate) :
    Except (List Conflict) Database :=
  (mergeOrAppend Entry.merge identifier c db.entries).map ({ db with entries := · })

/-- Merge a candidate into the list for automatic initialisation. -/
def upsertMember (db : Database) (identifier : String) (c : Candidate) :
    Except (List Conflict) Database :=
  (mergeOrAppend Entry.mergeMember identifier c db.autoInit).map ({ db with autoInit := · })

/-- Take a record into the list that its kind belongs to. -/
def apply (db : Database) (r : Record) : Except (List Conflict) Database :=
  match r.kind with
  | .autoInit => db.upsertMember r.identifier r.candidate
  | .definition | .reference => db.upsert r.identifier r.candidate

/-- Take records one after the other.  A rejected record changes nothing; the
conflicts are answered in order. -/
def applyAll (db : Database) (rs : List Record) : Database × List Conflict :=
  rs.foldl (fun (db, conflicts) r =>
    match db.apply r with
    | .ok db => (db, conflicts)
    | .error new => (db, conflicts ++ new)) (db, [])

/-- Entries that the earlier database knows come first, in its order; the others
follow in theirs. -/
def orderLike (db earlier : Database) : Database :=
  let placed := db.entries.map fun e => (position? e.identifier earlier.entries, e)
  let known := placed.filterMap fun (place, e) => place.map (·, e)
  let new := placed.filterMap fun (place, e) => if place.isNone then some e else none
  { db with entries := (known.mergeSort fun a b => a.1 ≤ b.1).map (·.2) ++ new }

end Database

/-- An entry that is used but has no text gets its identifier as display text,
at the place of its first use. -/
def Entry.fillAutoValue? (e : Entry) : Option Entry :=
  if e.isResolved || !e.isReferenced then none
  else
    e.references.head?.map fun location =>
      refreshHash { e with fallback := some ⟨displayText e.identifier, location⟩ }

namespace Database

/-- Fill every entry that is used but has no text. -/
def fillAutoValues (db : Database) : Database :=
  { db with entries := db.entries.map fun e => e.fillAutoValue?.getD e }

/-- The identifiers of the entries that `fillAutoValues` fills. -/
def autoFilled (db : Database) : List String :=
  db.entries.filterMap fun e => e.fillAutoValue?.map (·.identifier)

end Database

end FlashStrings
