import FlashStrings.Proofs.IndexedDatabase.Places
import FlashStrings.Proofs.Run.Merged
import FlashStrings.Proofs.Stored.Load

/-!
# Consistent databases

In an entry three things follow from the others: the hash from the texts, the
number of uses from their places, and where a text came from, from the places
that gave a value.  Only a display text has another source, the identifier and
its first use (`Entry.Sourced`).  Merging touches some of these at a time, and
keeps all (`Entry.Consistent.merge`, `Entry.Consistent.mergeMember`).

So does every operation on a database, and none gives an identifier a second
entry.  Hence every reachable database is consistent, its indices hold the
places of all identifiers and no other, and never lead out of the lists
(`IndexedDatabase.Reachable.consistent`).
-/

namespace FlashStrings

/-! ## Entries -/

/-- A text comes from a place that gave a value.  A fallback may also be the
display text of the identifier, at the place of the first use. -/
def Entry.Sourced (e : Entry) (key : Option String) (t : SitedText) : Prop :=
  t.location ∈ e.definitions ∨
    (key = none ∧ t.text = displayText e.identifier ∧ e.references.head? = some t.location)

/-- The parts of an entry fit each other. -/
structure Entry.Consistent (e : Entry) : Prop where
  /-- The hash is that of the texts. -/
  contentHash : e.contentHash = e.value.contentHash
  /-- Each use has its place. -/
  usageCount : e.usageCount = e.references.length
  /-- Each text has its source. -/
  texts : ∀ key t, e.at? key = some t → e.Sourced key t

/-- A consistent entry of definitions and references. -/
structure Entry.Regular (e : Entry) : Prop extends e.Consistent where
  /-- It is fixed by a definition, or made of references alone. -/
  origin : e.origin = .fixed ∨ e.origin = .auto

/-- A consistent member of the list for automatic initialisation. -/
structure Entry.Member (e : Entry) : Prop extends e.Consistent where
  /-- It comes from that list. -/
  origin : e.origin = .autoInit
  /-- It is not used. -/
  unused : e.usageCount = 0

namespace Entry

variable {e e' : Entry} {c : Candidate} {r : Record}

@[simp] theorem at?_account (e : Entry) (c : Candidate) (key : Option String) :
    (e.account c).at? key = e.at? key := by
  rw [account_eq]
  cases key <;> rfl

@[simp] theorem at?_promote (e : Entry) (c : Candidate) (key : Option String) :
    (e.promote c).at? key = e.at? key := by
  rw [promote_eq]
  cases key <;> rfl

@[simp] theorem at?_refreshHash (e : Entry) (key : Option String) :
    e.refreshHash.at? key = e.at? key := by
  cases key <;> rfl

theorem samePlaces_promote (e : Entry) (c : Candidate) : SamePlaces e (e.promote c) := by
  rw [promote_eq]
  exact ⟨rfl, rfl, rfl, rfl⟩

theorem samePlaces_adopt (e : Entry) (c : Candidate) :
    SamePlaces e (e.adopt c).refreshHash := by
  obtain ⟨-, husage, hreferences, hdefinitions⟩ := e.sameCounts_adopt c
  exact ⟨e.identifier_adopt c, husage, hreferences, hdefinitions⟩

theorem SamePlaces.trans {e e' e'' : Entry} (h : SamePlaces e e') (h' : SamePlaces e' e'') :
    SamePlaces e e'' :=
  ⟨h'.identifier.trans h.identifier, h'.usageCount.trans h.usageCount,
    h'.references.trans h.references, h'.definitions.trans h.definitions⟩

/-- An adopted text comes from the candidate. -/
theorem of_at?_adopt {key : Option String} {t : SitedText} (h : (e.adopt c).at? key = some t) :
    e.at? key = some t ∨ (t.location = c.location ∧ c.value.isEmpty = false) := by
  rw [at?_adopt] at h
  rcases Option.or_eq_some_iff.1 h with h | ⟨-, h⟩
  · exact .inl h
  · obtain ⟨text, htext, rfl⟩ := Option.map_eq_some_iff.1 h
    refine .inr ⟨rfl, Bool.eq_false_iff.2 fun hempty => ?_⟩
    rw [Value.at?_eq_none_of_isEmpty hempty] at htext
    cases htext

/-- Accounting for a candidate gives every new text of it a source.  `e'` is the
entry with its new texts, still with the old places. -/
theorem Consistent.account (h : e.Consistent) (hsame : SamePlaces e e')
    (hhash : e'.contentHash = e'.value.contentHash)
    (htexts : ∀ key t, e'.at? key = some t →
      e.at? key = some t ∨ (t.location = c.location ∧ c.value.isEmpty = false)) :
    (e'.account c).Consistent where
  contentHash := by rw [contentHash_account, value_account, hhash]
  usageCount := by
    rw [account_eq]
    simp only [hsame.usageCount, hsame.references, h.usageCount, List.length_append]
    cases c.isReference <;> rfl
  texts key t ht := by
    rw [at?_account] at ht
    rw [account_eq, Sourced]
    simp only [hsame.definitions, hsame.references, hsame.identifier]
    rcases htexts key t ht with hold | ⟨hlocation, hvalue⟩
    · refine (h.texts key t hold).imp (List.mem_append_left _) fun ⟨hkey, htext, hfirst⟩ => ?_
      exact ⟨hkey, htext, by rw [List.head?_append, hfirst, Option.some_or]⟩
    · rw [hlocation, hvalue]
      exact .inl (List.mem_append_right _ (List.mem_singleton.2 rfl))

theorem consistent_create (identifier : String) (c : Candidate) :
    (create identifier c).Consistent := by
  have hblank : (blank identifier c.origin).Consistent :=
    ⟨rfl, rfl, fun key t ht => by cases key <;> cases ht⟩
  exact hblank.account (samePlaces_adopt _ c) rfl fun _ _ ht => of_at?_adopt (by simpa using ht)

theorem Consistent.merge (h : e.Consistent) (hm : e.merge c = .ok e') : e'.Consistent := by
  rcases merge_eq_ok hm with ⟨-, rfl⟩ | ⟨-, rfl⟩
  · exact h.account (samePlaces_promote e c) (by simp [h.contentHash]) fun _ _ ht =>
      .inl (by simpa using ht)
  · exact h.account ((samePlaces_adopt e c).trans (samePlaces_promote _ c)) (by simp)
      fun _ _ ht => of_at?_adopt (by simpa using ht)

theorem Consistent.mergeMember (h : e.Consistent) (hm : e.mergeMember c = .ok e') :
    e'.Consistent := by
  obtain ⟨-, rfl⟩ := mergeMember_eq_ok hm
  exact h.account (.refl e) h.contentHash fun _ _ => .inl

theorem Consistent.filled (h : e.Consistent) : e.filled.Consistent := by
  rcases e.filled_cases with hsame | ⟨location, -, hplace, hfilled⟩
  · rwa [hsame]
  · rw [hfilled]
    refine ⟨rfl, h.usageCount, fun key t ht => ?_⟩
    cases key with
    | none =>
      obtain rfl := Option.some.inj ht
      exact .inr ⟨rfl, rfl, hplace⟩
    | some code => exact h.texts (some code) t ht

/-! ### Origins -/

theorem regular_create (hk : r.kind ≠ .autoInit) : (create r.identifier r.candidate).Regular where
  toConsistent := consistent_create _ _
  origin := by
    rw [(counts_create hk).origin]
    split <;> simp

theorem Regular.merge (h : e.Regular) (hm : e.merge c = .ok e') : e'.Regular where
  toConsistent := h.toConsistent.merge hm
  origin := by
    have hpromote : ∀ e₁ : Entry, e₁.origin = e.origin →
        ((e₁.promote c).account c).origin = .fixed ∨ ((e₁.promote c).account c).origin = .auto := by
      intro e₁ hsame
      rw [account_eq, promote_eq]
      split
      · exact .inl rfl
      · exact hsame ▸ h.origin
    rcases merge_eq_ok hm with ⟨-, rfl⟩ | ⟨-, rfl⟩
    · exact hpromote e rfl
    · exact hpromote _ (e.sameCounts_adopt c).1

theorem Regular.filled (h : e.Regular) : e.filled.Regular where
  toConsistent := h.toConsistent.filled
  origin := by
    rcases e.filled_cases with hsame | ⟨location, -, -, hfilled⟩
    · rw [hsame]
      exact h.origin
    · rw [hfilled]
      exact h.origin

theorem isReference_of_autoInit (hk : r.kind = .autoInit) : r.candidate.isReference = false := by
  simp [Record.candidate, hk]

theorem member_create (hk : r.kind = .autoInit) : (create r.identifier r.candidate).Member where
  toConsistent := consistent_create _ _
  origin := by
    rw [create, account_eq]
    refine (sameCounts_adopt _ r.candidate).1.trans ?_
    simp [blank, refreshHash, Record.candidate, hk, RecordKind.origin]
  unused := by
    rw [create, account_eq, isReference_of_autoInit hk]
    exact (samePlaces_adopt _ _).usageCount

theorem Member.mergeMember (h : e.Member) (hk : r.kind = .autoInit)
    (hm : e.mergeMember r.candidate = .ok e') : e'.Member where
  toConsistent := h.toConsistent.mergeMember hm
  origin := by
    obtain ⟨-, rfl⟩ := mergeMember_eq_ok hm
    rw [account_eq]
    exact h.origin
  unused := by
    obtain ⟨-, rfl⟩ := mergeMember_eq_ok hm
    rw [account_eq, isReference_of_autoInit hk]
    exact h.unused

end Entry

/-! ## Databases -/

namespace Database

/-- No identifier stands twice in a list, and every entry fits its list. -/
structure Consistent (db : Database) : Prop where
  /-- The identifiers of the entries are distinct. -/
  entriesDistinct : (identifiers db.entries).Nodup
  /-- The identifiers of the members are. -/
  membersDistinct : (identifiers db.autoInit).Nodup
  /-- The entries are consistent and regular. -/
  entries : ∀ e ∈ db.entries, e.Regular
  /-- The members are consistent and not used. -/
  members : ∀ e ∈ db.autoInit, e.Member

variable {db db' : Database} {r : Record}

theorem consistent_empty : Consistent {} := ⟨.nil, .nil, nofun, nofun⟩

/-- A member that is taken is merged into the members. -/
theorem mergeOrAppend_of_apply_autoInit (h : r.kind = .autoInit) (ha : db.apply r = .ok db') :
    mergeOrAppend Entry.mergeMember r.identifier r.candidate db.autoInit = .ok db'.autoInit ∧
      db'.entries = db.entries := by
  rw [apply, h] at ha
  obtain ⟨members, hm, rfl⟩ := map_eq_ok ha
  exact ⟨hm, rfl⟩

theorem autoInit_of_apply (h : r.kind ≠ .autoInit) (ha : db.apply r = .ok db') :
    db'.autoInit = db.autoInit := by
  rw [apply_eq_upsert h] at ha
  obtain ⟨entries, -, rfl⟩ := map_eq_ok ha
  rfl

theorem Consistent.apply (h : db.Consistent) (ha : db.apply r = .ok db') : db'.Consistent := by
  by_cases hk : r.kind = .autoInit
  · obtain ⟨hm, hentries⟩ := mergeOrAppend_of_apply_autoInit hk ha
    refine ⟨hentries ▸ h.entriesDistinct, ?_, hentries ▸ h.entries, ?_⟩
    · exact nodup_identifiers_of_mergeOrAppend (Entry.identifier_create ..)
        (fun _ _ => Entry.identifier_of_mergeMember) hm h.membersDistinct
    · exact forall_of_mergeOrAppend (Entry.member_create hk)
        (fun _ _ he => he.mergeMember hk) hm h.members
  · have hm := mergeOrAppend_of_apply hk ha
    have hmembers := autoInit_of_apply hk ha
    refine ⟨nodup_identifiers_of_apply h.entriesDistinct ha, hmembers ▸ h.membersDistinct, ?_,
      hmembers ▸ h.members⟩
    exact forall_of_mergeOrAppend (Entry.regular_create hk) (fun _ _ => Entry.Regular.merge) hm
      h.entries

theorem Consistent.orderLike (h : db.Consistent) (earlier : Database) :
    (db.orderLike earlier).Consistent where
  entriesDistinct := ((perm_orderLike db earlier).map _).nodup_iff.2 h.entriesDistinct
  membersDistinct := h.membersDistinct
  entries e he := h.entries e ((perm_orderLike db earlier).mem_iff.1 he)
  members := h.members

theorem Consistent.fillAutoValues (h : db.Consistent) : db.fillAutoValues.Consistent where
  entriesDistinct := by
    rw [identifiers_fillAutoValues]
    exact h.entriesDistinct
  membersDistinct := h.membersDistinct
  entries e he := by
    obtain ⟨e₀, he₀, rfl⟩ := List.mem_map.1 he
    exact (h.entries e₀ he₀).filled
  members := h.members

end Database

/-! ## Indices -/

namespace IndexedDatabase

/-- The database is consistent, and each index holds the places of the
identifiers in its list and no other. -/
structure Consistent (db : IndexedDatabase) : Prop where
  database : db.database.Consistent
  /-- The places of the entries. -/
  entryPlaces : ∀ identifier i, db.entryPlaces.get? identifier = some i ↔
    (identifiers db.database.entries)[i]? = some identifier
  /-- The places of the members. -/
  memberPlaces : ∀ identifier i, db.memberPlaces.get? identifier = some i ↔
    (identifiers db.database.autoInit)[i]? = some identifier

variable {allowed : Location → Prop} {db db' : IndexedDatabase}

theorem consistent_ofDatabase {db : Database} (h : db.Consistent) : (ofDatabase db).Consistent where
  database := h
  entryPlaces _ _ := get?_placesOf_eq_some_iff h.entriesDistinct
  memberPlaces _ _ := get?_placesOf_eq_some_iff h.membersDistinct

theorem Reachable.consistent_database (h : Reachable allowed db) : db.database.Consistent := by
  induction h with
  | empty => exact Database.consistent_empty
  | apply hdb _ ha ih =>
    rw [hdb.apply_eq] at ha
    obtain ⟨db', hdb', rfl⟩ := map_eq_ok (Option.some.inj ha)
    exact ih.apply hdb'
  | orderLike hdb hearlier ih _ =>
    rw [hdb.eq_ofDatabase, hearlier.eq_ofDatabase, orderLike_ofDatabase]
    exact ih.orderLike _
  | fillAutoValues _ ih => exact ih.fillAutoValues
  | withFingerprint _ _ ih => exact ⟨ih.entriesDistinct, ih.membersDistinct, ih.entries, ih.members⟩
  | withFile _ _ _ ih => exact ⟨ih.entriesDistinct, ih.membersDistinct, ih.entries, ih.members⟩
  | reload _ hsave hload ih =>
    obtain ⟨db', hdb', rfl⟩ := map_eq_ok hload
    obtain rfl := Database.load_of_read?_eq_some (FileStep.read?_performAll_ofContent hsave) hdb'
    exact ih

/-- Every database that operations lead to is consistent, and takes or rejects
every record. -/
theorem Reachable.consistent (h : Reachable allowed db) :
    db.Consistent ∧ ∀ r, ∃ result, db.apply r = some result := by
  refine ⟨?_, fun r => ⟨_, h.apply_eq r⟩⟩
  rw [h.eq_ofDatabase]
  exact consistent_ofDatabase h.consistent_database

/-! ### One use without a text -/

/-- A use of an identifier that has no text. -/
def bareUse : Record :=
  { identifier := "Not_Found", kind := .reference, value := {}, location := ⟨"a.c", 4, 1⟩ }

/-- The database of this use, where the identifier has its display text. -/
def displayed : IndexedDatabase :=
  (ofDatabase { entries := [.create bareUse.identifier bareUse.candidate] }).fillAutoValues

theorem reachable_displayed : Reachable (fun l => l.fits = true) displayed :=
  .fillAutoValues (.apply (r := bareUse) .empty (by decide) (apply_ofDatabase {} bareUse))

theorem consistent_displayed : displayed.Consistent ∧
    (displayed.lookup? "Not_Found").map Entry.fallback =
      some (some ⟨"Not Found", ⟨"a.c", 4, 1⟩⟩) :=
  ⟨reachable_displayed.consistent.1, by decide +kernel⟩

end IndexedDatabase

end FlashStrings
