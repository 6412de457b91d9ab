import FlashStrings.Proofs.Json.Decode

/-!
# The database file there and back

Loading the text that a database is saved as gives that database, if all its
numbers fit a file (`Database.ofText?_toText`); else the text is refused.  So no
database is ever loaded from a saved text but the one that was saved.

Each type has two laws: its encoding is plain JSON, and decoding it gives the
value when the value fits and nothing when it does not.
-/

namespace FlashStrings

open Json (Plain)

/-! ## Places and values -/

/-- Whether the numbers of a location fit a file. -/
def Location.fits (l : Location) : Bool :=
  decide (l.line < UInt64.size) && decide (l.col < UInt64.size)

theorem Location.plain_toJson (l : Location) : Plain l.toJson := by
  refine .ofMembers fun m hm => ?_
  simp only [List.mem_cons, List.not_mem_nil, or_false] at hm
  rcases hm with rfl | rfl | rfl
  · exact .text _
  · exact .num _
  · exact .num _

theorem Location.ofJson?_toJson (l : Location) :
    ofJson? l.toJson = if l.fits then some l else none := by
  rw [ofJson?, toJson, Json.fields?_ofMembers (by simp) (by decide)]
  by_cases hl : l.line < UInt64.size <;> by_cases hc : l.col < UInt64.size <;>
    simp [Json.Fields.required?, List.lookup_cons, fits, hl, hc]

/-- The members of a value as JSON. -/
def Value.members (v : Value) : List (String × Json) :=
  (v.fallback.map fun text => ("default", Json.ofText text)).toList ++
    memberIf (!v.locales.isEmpty) "locales" (v.locales.toJson .ofText)

theorem Value.plain_toJson (v : Value) : Plain v.toJson := by
  refine .ofMembers fun m hm => ?_
  rcases List.mem_append.1 hm with hm | hm
  · exact plain_optional (fun s => .text s) m hm
  · exact plain_memberIf (Json.plain_toJson (fun s => .text s) v.locales) m hm

theorem Value.map_fst_members (v : Value) :
    (v.members.map Prod.fst).Sublist ["default", "locales"] := by
  rw [members, List.map_append]
  exact (map_fst_optional ..).append (map_fst_memberIf ..)

theorem Value.ofJson?_toJson (v : Value) : ofJson? v.toJson = some v := by
  have hfallback : Json.Fields.withDefault? v.members "default" none Json.textOrNull? =
      if v.fallback.all (fun _ => true) then some v.fallback else none :=
    Json.Fields.withDefault?_optional v.members "default" v.fallback Json.ofText
      (by simp [members, List.lookup_append]) fun s => rfl
  have hlocales : Json.Fields.withDefault? v.members "locales" ∅ (Json.map? Json.text?) =
      if v.locales.entries.all (fun _ => true) then some v.locales else none :=
    Json.Fields.withDefault?_memberIf v.members "locales" (!v.locales.isEmpty)
      (by simp [members, List.lookup_append])
      (Json.map?_toJson Json.text?_ofText_fits v.locales) (by simp [SortedMap.isEmpty_iff])
  rw [ofJson?, show v.toJson = .ofMembers v.members from rfl,
    Json.fields?_ofMembers v.map_fst_members (by decide)]
  simp [hfallback, hlocales]

theorem SitedText.plain_toJson (t : SitedText) : Plain t.toJson := by
  refine .ofMembers fun m hm => ?_
  simp only [List.mem_cons, List.not_mem_nil, or_false] at hm
  rcases hm with rfl | rfl
  · exact .text _
  · exact t.location.plain_toJson

theorem SitedText.ofJson?_toJson (t : SitedText) :
    ofJson? t.toJson = if t.location.fits then some t else none := by
  rw [ofJson?, toJson, Json.fields?_ofMembers (by simp) (by decide)]
  cases hf : t.location.fits <;>
    simp [Json.Fields.required?, List.lookup_cons, Location.ofJson?_toJson, hf]

/-! ## Records and entries -/

theorem RecordKind.ofJson?_name (kind : RecordKind) : ofJson? (.ofText kind.name) = some kind := by
  cases kind <;> rfl

theorem Origin.ofJson?_name (origin : Origin) : ofJson? (.ofText origin.name) = some origin := by
  cases origin <;> rfl

theorem Record.plain_toJson (r : Record) : Plain r.toJson := by
  refine .ofMembers fun m hm => ?_
  simp only [List.mem_cons, List.not_mem_nil, or_false] at hm
  rcases hm with rfl | rfl | rfl | rfl
  · exact .text _
  · exact .text _
  · exact r.value.plain_toJson
  · exact r.location.plain_toJson

theorem Record.ofJson?_toJson (r : Record) :
    ofJson? r.toJson = if r.location.fits then some r else none := by
  rw [ofJson?, toJson, Json.fields?_ofMembers (by simp) (by decide)]
  cases hf : r.location.fits <;>
    simp [Json.Fields.required?, Json.Fields.withDefault?, List.lookup_cons,
      Location.ofJson?_toJson, RecordKind.ofJson?_name, Value.ofJson?_toJson, hf]

/-- Whether the numbers of an entry fit a file. -/
def Entry.fits (e : Entry) : Bool :=
  e.fallback.all (·.location.fits) && e.locales.entries.all (fun t => t.2.location.fits) &&
    decide (e.usageCount < UInt64.size) && e.references.all Location.fits &&
    e.definitions.all Location.fits

theorem plain_locationsToJson (l : List Location) : Plain (locationsToJson l) :=
  Json.plain_array Location.plain_toJson l

theorem list?_locationsToJson (l : List Location) :
    Json.list? Location.ofJson? (locationsToJson l) =
      if l.all Location.fits then some l else none :=
  Json.list?_map Location.ofJson?_toJson l

theorem SitedText.orNull?_toJson (t : SitedText) :
    orNull? t.toJson = if t.location.fits then some (some t) else none := by
  have h := t.ofJson?_toJson
  rw [toJson, Json.ofMembers] at h ⊢
  rw [orNull?, h]
  · cases t.location.fits <;> rfl
  · intro he
    cases he

/-- The members of an entry as JSON. -/
def Entry.members (e : Entry) : List (String × Json) :=
  [("identifier", .ofText e.identifier), ("origin", .ofText e.origin.name)] ++
    (e.fallback.map fun t => ("defaultValue", t.toJson)).toList ++
    memberIf (!e.locales.isEmpty) "locales" (e.locales.toJson SitedText.toJson) ++
    [("usageCount", .ofNat e.usageCount)] ++
    memberIf (!e.references.isEmpty) "references" (locationsToJson e.references) ++
    memberIf (!e.definitions.isEmpty) "definitions" (locationsToJson e.definitions) ++
    [("contentHash", .ofText e.contentHash)]

theorem Entry.plain_toJson (e : Entry) : Plain e.toJson := by
  refine .ofMembers fun m hm => ?_
  simp only [List.mem_append, List.mem_cons, List.not_mem_nil, or_false] at hm
  rcases hm with (((((((rfl | rfl) | hm) | hm) | rfl) | hm) | hm) | rfl)
  · exact .text _
  · exact .text _
  · exact plain_optional SitedText.plain_toJson m hm
  · exact plain_memberIf (Json.plain_toJson SitedText.plain_toJson e.locales) m hm
  · exact .num _
  · exact plain_memberIf (plain_locationsToJson e.references) m hm
  · exact plain_memberIf (plain_locationsToJson e.definitions) m hm
  · exact .text _

theorem Entry.map_fst_members (e : Entry) :
    (e.members.map Prod.fst).Sublist ["identifier", "origin", "defaultValue", "locales",
      "usageCount", "references", "definitions", "contentHash"] := by
  simp only [members, List.map_append]
  exact ((((((List.Sublist.refl ["identifier", "origin"]).append (map_fst_optional ..)).append
    (map_fst_memberIf ..)).append (.refl ["usageCount"])).append (map_fst_memberIf ..)).append
    (map_fst_memberIf ..)).append (.refl ["contentHash"])

theorem Entry.ofJson?_toJson (e : Entry) :
    ofJson? e.toJson = if e.fits then some e else none := by
  have hfallback : Json.Fields.withDefault? e.members "defaultValue" none SitedText.orNull? =
      if e.fallback.all (·.location.fits) then some e.fallback else none :=
    Json.Fields.withDefault?_optional e.members "defaultValue" e.fallback SitedText.toJson
      (by simp [members, List.lookup_append, List.lookup_cons]) SitedText.orNull?_toJson
  have hlocales : Json.Fields.withDefault? e.members "locales" ∅ (Json.map? SitedText.ofJson?) =
      if e.locales.entries.all (fun t => t.2.location.fits) then some e.locales else none :=
    Json.Fields.withDefault?_memberIf e.members "locales" (!e.locales.isEmpty)
      (by simp [members, List.lookup_append, List.lookup_cons])
      (Json.map?_toJson SitedText.ofJson?_toJson e.locales) fun he => by
        have hempty : e.locales = ∅ := SortedMap.isEmpty_iff.1 (by simpa using he)
        rw [hempty]
        exact ⟨rfl, rfl⟩
  have hreferences :
      Json.Fields.withDefault? e.members "references" [] (Json.list? Location.ofJson?) =
        if e.references.all Location.fits then some e.references else none :=
    Json.Fields.withDefault?_memberIf e.members "references" (!e.references.isEmpty)
      (by simp [members, List.lookup_append, List.lookup_cons])
      (list?_locationsToJson e.references) (by simp +contextual)
  have hdefinitions :
      Json.Fields.withDefault? e.members "definitions" [] (Json.list? Location.ofJson?) =
        if e.definitions.all Location.fits then some e.definitions else none :=
    Json.Fields.withDefault?_memberIf e.members "definitions" (!e.definitions.isEmpty)
      (by simp [members, List.lookup_append, List.lookup_cons])
      (list?_locationsToJson e.definitions) (by simp +contextual)
  have hcount : Json.Fields.required? e.members "usageCount" Json.nat? =
      if e.usageCount < UInt64.size then some e.usageCount else none := by
    simp [Json.Fields.required?, members, List.lookup_append, List.lookup_cons]
  have hidentifier : Json.Fields.required? e.members "identifier" Json.text? =
      some e.identifier := rfl
  have horigin : Json.Fields.required? e.members "origin" Origin.ofJson? = some e.origin :=
    e.origin.ofJson?_name
  have hhash : Json.Fields.required? e.members "contentHash" Json.text? = some e.contentHash := by
    simp [Json.Fields.required?, members, List.lookup_append, List.lookup_cons]
  rw [ofJson?, show e.toJson = .ofMembers e.members from rfl,
    Json.fields?_ofMembers e.map_fst_members (by decide)]
  simp only [Option.bind_eq_bind, Option.bind_some, hfallback, hlocales, hreferences,
    hdefinitions, hcount, hidentifier, horigin, hhash]
  rw [fits]
  cases e.fallback.all (·.location.fits) <;>
    cases e.locales.entries.all (fun t => t.2.location.fits) <;>
    cases e.references.all Location.fits <;> cases e.definitions.all Location.fits <;>
    by_cases hc : e.usageCount < UInt64.size <;> simp [hc]

/-! ## The file -/

/-- Whether the numbers of the records of a file fit a file. -/
def FileRecords.fits (f : FileRecords) : Bool := f.records.all (·.location.fits)

theorem FileRecords.plain_toJson (f : FileRecords) : Plain f.toJson := by
  refine .ofMembers fun m hm => ?_
  simp only [List.mem_cons, List.not_mem_nil, or_false] at hm
  rcases hm with rfl | rfl
  · exact .text _
  · exact Json.plain_array Record.plain_toJson f.records

theorem FileRecords.ofJson?_toJson (f : FileRecords) :
    ofJson? f.toJson = if f.fits then some f else none := by
  have hrecords := Json.list?_map Record.ofJson?_toJson f.records
  rw [ofJson?, toJson, Json.fields?_ofMembers (by simp) (by decide)]
  cases hf : f.fits <;> rw [FileRecords.fits] at hf <;>
    simp [Json.Fields.required?, Json.Fields.withDefault?, List.lookup_cons, hrecords, hf]

namespace Database

/-- Whether the numbers of a database fit a file. -/
def fits (db : Database) : Bool :=
  db.files.entries.all (fun f => f.2.fits) && db.entries.all Entry.fits &&
    db.autoInit.all Entry.fits

theorem plain_toJson (db : Database) : Plain db.toJson := by
  refine .ofMembers fun m hm => ?_
  simp only [List.mem_cons, List.not_mem_nil, or_false] at hm
  rcases hm with rfl | rfl | rfl | rfl | rfl
  · exact .num _
  · exact .text _
  · exact Json.plain_toJson FileRecords.plain_toJson db.files
  · exact Json.plain_array Entry.plain_toJson db.entries
  · exact Json.plain_array Entry.plain_toJson db.autoInit

theorem below?_databaseVersion :
    (Json.ofNat databaseVersion).below? UInt32.size = some databaseVersion := by decide

theorem ofJson?_toJson (db : Database) :
    ofJson? db.toJson = if db.fits then some db else none := by
  have hfiles := Json.map?_toJson FileRecords.ofJson?_toJson db.files
  have hentries := Json.list?_map Entry.ofJson?_toJson db.entries
  have hmembers := Json.list?_map Entry.ofJson?_toJson db.autoInit
  rw [ofJson?, toJson, Json.fields?_ofMembers (by simp) (by decide)]
  cases h1 : db.files.entries.all (fun f => f.2.fits) <;> cases h2 : db.entries.all Entry.fits <;>
    cases h3 : db.autoInit.all Entry.fits <;>
    simp [Json.Fields.required?, Json.Fields.withDefault?, List.lookup_cons, fits,
      below?_databaseVersion, hfiles, hentries, hmembers, h1, h2, h3]

theorem versionOf?_toJson (db : Database) : versionOf? db.toJson = some databaseVersion := by
  have hm := Json.members?_ofMembers [("version", .ofNat databaseVersion),
    ("fingerprint", .ofText db.fingerprint), ("files", db.files.toJson FileRecords.toJson),
    ("entries", .array (db.entries.map Entry.toJson)),
    ("autoInit", .array (db.autoInit.map Entry.toJson))]
  rw [Json.ofMembers] at hm
  rw [versionOf?, toJson, Json.ofMembers, Json.fields?, hm]
  · simp [Json.Fields.withDefault?, List.eraseDups_cons, below?_databaseVersion]
  · intro items hi
    cases hi

theorem parse?_toText (db : Database) : Json.parse? db.toText = some db.toJson :=
  Json.parse?_render_append db.plain_toJson (by simp [Json.Token.isSpace])

/-- Loading the text that a database is saved as gives that database, or nothing
when a number does not fit. -/
theorem ofText?_toText (db : Database) :
    ofText? db.toText = if db.fits then some db else none := by
  simp [ofText?, parse?_toText, versionOf?_toJson, ofJson?_toJson]

/-- No database but the saved one is loaded from its text. -/
theorem eq_of_ofText?_toText {db db' : Database} (h : ofText? db.toText = some db') :
    db' = db := by
  rw [ofText?_toText] at h
  split at h
  · exact (Option.some.inj h).symm
  · cases h

/-- Databases with one text are the same, if one of them can be loaded. -/
theorem eq_of_toText_eq {db db' : Database} (h : db.toText = db'.toText)
    (hfits : db.fits = true) : db = db' := by
  have hload := db.ofText?_toText
  rw [if_pos hfits, h] at hload
  exact eq_of_ofText?_toText hload

end Database

end FlashStrings
