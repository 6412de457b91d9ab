import FlashStrings.Stored.Load

/-!
# Databases with indices

While a database is worked on, an index stands beside each of its two lists and
holds the places of the identifiers.  It is kept along: an entry that is
appended gets its place noted, one that is merged into keeps it, and only a new
order and loading make the indices anew.  The file has no indices.

`mergeOrAppend` and `Database.lookup?` look for an identifier in the list itself.
The two forms of every operation agree (`Proofs/IndexedDatabase/Places`).
-/

namespace FlashStrings

/-- The places of the identifiers in a list; of two for one, the later. -/
def placesOf (es : List Entry) : TextMap Nat :=
  .ofList (es.zipIdx.map fun (e, i) => (e.identifier, i))

/-- Merge a candidate into the entry at the place of its identifier, or append a
new one and note its place.  There is no answer if the place is not in the list. -/
def mergeAtPlace (merge : Entry → Candidate → Except (List Conflict) Entry) (identifier : String)
    (c : Candidate) (es : List Entry) (places : TextMap Nat) :
    Option (Except (List Conflict) (List Entry × TextMap Nat)) :=
  match places.get? identifier with
  | some i => es[i]?.map fun e => (merge e c).map fun e => (es.set i e, places)
  | none => some (.ok (es ++ [.create identifier c], places.insert identifier es.length))

/-- Entries with a place first, by their places, and the others behind them. -/
def orderBy (place : String → Option Nat) (es : List Entry) : List Entry :=
  let placed := es.map fun e => (place e.identifier, e)
  let known := placed.filterMap fun (i, e) => i.map (·, e)
  let new := placed.filterMap fun (i, e) => if i.isNone then some e else none
  (known.mergeSort fun a b => a.1 ≤ b.1).map (·.2) ++ new

/-- A database and its indices. -/
structure IndexedDatabase where
  database : Database := {}
  /-- The places of the entries. -/
  entryPlaces : TextMap Nat := ∅
  /-- The places of the members of the list for automatic initialisation. -/
  memberPlaces : TextMap Nat := ∅
  deriving DecidableEq, Repr

namespace IndexedDatabase

/-- The database with both indices made anew. -/
def ofDatabase (db : Database) : IndexedDatabase :=
  { database := db, entryPlaces := placesOf db.entries, memberPlaces := placesOf db.autoInit }

/-- The entry of an identifier. -/
def lookup? (db : IndexedDatabase) (identifier : String) : Option Entry :=
  (db.entryPlaces.get? identifier).bind (db.database.entries[·]?)

/-- Take a record into the list that its kind belongs to.  There is no answer if
an index leads out of its list. -/
def apply (db : IndexedDatabase) (r : Record) : Option (Except (List Conflict) IndexedDatabase) :=
  match r.kind with
  | .autoInit =>
    (mergeAtPlace Entry.mergeMember r.identifier r.candidate db.database.autoInit
      db.memberPlaces).map fun result => result.map fun (autoInit, memberPlaces) =>
        { db with database := { db.database with autoInit }, memberPlaces }
  | .definition | .reference =>
    (mergeAtPlace Entry.merge r.identifier r.candidate db.database.entries
      db.entryPlaces).map fun result => result.map fun (entries, entryPlaces) =>
        { db with database := { db.database with entries }, entryPlaces }

/-- Entries that the earlier database knows come first, in its order; the others
follow in theirs. -/
def orderLike (db earlier : IndexedDatabase) : IndexedDatabase :=
  ofDatabase { db.database with
    entries := orderBy (earlier.entryPlaces.get? ·) db.database.entries }

/-- Fill every entry that is used but has no text. -/
def fillAutoValues (db : IndexedDatabase) : IndexedDatabase :=
  { db with database := db.database.fillAutoValues }

/-- The database with this fingerprint. -/
def withFingerprint (db : IndexedDatabase) (fingerprint : String) : IndexedDatabase :=
  { db with database := { db.database with fingerprint } }

/-- The database with the records of one more file. -/
def withFile (db : IndexedDatabase) (file : String) (f : FileRecords) : IndexedDatabase :=
  { db with database := { db.database with files := db.database.files.insert file f } }

/-- The text of the file. -/
def toText (db : IndexedDatabase) : String := db.database.toText

/-- The steps that save the database at a path. -/
def saveSteps (db : IndexedDatabase) (p : Path) : List FileStep :=
  FileStep.ofContent p (Utf8.encode db.toText)

/-- The database at a path. -/
def load (t : FileTree) (p : Path) : Except Failure IndexedDatabase :=
  (Database.load t p).map ofDatabase

end IndexedDatabase

end FlashStrings
