import FlashStrings.Proofs.Merge.Order
import FlashStrings.Proofs.Merge.Sequence
import FlashStrings.Proofs.Merge.Shortcut

/-!
# What was taken is held

A record is merged into one entry, that of its identifier among the entries or among the
members of the list for automatic initialisation (`Database.entryFor?`).  The entry takes
all texts of the record or rejects it, and later records take no text away
(`Entry.Joins.below`).  So where no conflict names the place of a record, its texts are
all there in the end (`Database.holds_applyAll`).

A hash in place of the texts needs that it tells the texts, for values made of the
records that share the entry.
-/

namespace FlashStrings

/-! ## Records of one entry -/

/-- The records are merged into one entry. -/
def Record.Shares (r r' : Record) : Prop :=
  r.identifier = r'.identifier ∧ (r.kind = .autoInit ↔ r'.kind = .autoInit)

theorem Record.Shares.refl (r : Record) : r.Shares r := ⟨rfl, .rfl⟩

instance (r r' : Record) : Decidable (r.Shares r') := inferInstanceAs (Decidable (_ ∧ _))

/-- The records that share the entry of a record. -/
def sharing (r : Record) (rs : List Record) : List Record := rs.filter (·.Shares r)

theorem mem_sharing {r r' : Record} {rs : List Record} :
    r' ∈ sharing r rs ↔ r' ∈ rs ∧ r'.Shares r := by
  simp [sharing]

theorem mem_sharing_self {r : Record} {rs : List Record} (h : r ∈ rs) : r ∈ sharing r rs :=
  mem_sharing.2 ⟨h, .refl r⟩

theorem Record.Shares.sharing_eq {r r' : Record} (h : r.Shares r') (rs : List Record) :
    sharing r rs = sharing r' rs := by
  refine List.filter_congr fun x _ => decide_eq_decide.2 ?_
  rw [Record.Shares, Record.Shares, h.1, h.2]

namespace Entry

variable {e e' : Entry} {c : Candidate} {rs : List Record}

/-- The entry has the hash of its texts, and these are texts of the records. -/
structure Sealed (e : Entry) (rs : List Record) : Prop where
  contentHash : e.contentHash = e.value.contentHash
  madeOf : e.value.MadeOf rs

/-- The entry has become another one that took a candidate. -/
structure Joins (e : Entry) (c : Candidate) (e' : Entry) : Prop where
  identifier : e'.identifier = e.identifier
  /-- The hash is that of the texts, or both are as before. -/
  contentHash : e'.contentHash = e'.value.contentHash ∨
    e'.value = e.value ∧ e'.contentHash = e.contentHash
  /-- No text is taken away. -/
  below : e.value.Below e'.value
  /-- No other text is there. -/
  only : ∀ key text, e'.value.at? key = some text →
    e.value.at? key = some text ∨ c.value.at? key = some text
  /-- The candidate is taken text by text, or by its hash. -/
  taken : c.value.Below e'.value ∨ c.value.contentHash = e.contentHash

theorem joins_of_same (hid : e'.identifier = e.identifier) (hvalue : e'.value = e.value)
    (hhash : e'.contentHash = e.contentHash)
    (htaken : c.value.isEmpty = true ∨ c.value.contentHash = e.contentHash) : e.Joins c e' where
  identifier := hid
  contentHash := .inr ⟨hvalue, hhash⟩
  below := hvalue ▸ .refl e.value
  only _ _ ht := .inl (hvalue ▸ ht)
  taken := htaken.imp_left fun hempty key _ ht =>
    absurd ((Value.at?_eq_none_of_isEmpty hempty key).symm.trans ht) nofun

theorem joins_of_merge (h : e.merge c = .ok e') : e.Joins c e' := by
  rcases merge_eq_ok h with ⟨htaken, rfl⟩ | ⟨hnil, rfl⟩
  · exact joins_of_same (by simp) (by simp) (by simp) htaken
  · have hat : ∀ key, (((e.adopt c).refreshHash.promote c).account c).value.at? key =
        (e.value.at? key).or (c.value.at? key) := by simp [at?_value_adopt]
    refine ⟨identifier_of_merge h, .inl (by simp), fun key text ht => ?_,
      fun key text ht => ?_, .inl fun key text ht => ?_⟩
    · rw [hat, ht, Option.some_or]
    · rw [hat, Option.or_eq_some_iff] at ht
      exact ht.imp_right And.right
    · rw [hat, Option.or_eq_some_iff]
      cases hold : e.value.at? key with
      | none => exact .inr ⟨rfl, ht⟩
      | some text' =>
        exact .inl (congrArg some (conflicts_eq_nil_iff.1 hnil key text' text hold ht))

theorem joins_of_mergeMember (h : e.mergeMember c = .ok e') : e.Joins c e' := by
  obtain ⟨hsame, rfl⟩ := mergeMember_eq_ok h
  exact joins_of_same (by simp) (by simp) (by simp) (.inr hsame)

/-- The conflicts with a candidate are at its place. -/
theorem location_of_mem_conflicts {x : Conflict} (h : x ∈ e.conflicts c) :
    x.incoming.location = c.location := by
  obtain ⟨⟨key, text⟩, -, hx⟩ := List.mem_filterMap.1 h
  obtain ⟨existing, -, hx⟩ := Option.bind_eq_some_iff.1 hx
  split at hx
  · cases hx
  · exact Option.some.inj hx ▸ rfl

variable {r : Record}

theorem sealed_create (hr : r ∈ rs) : (create r.identifier r.candidate).Sealed rs where
  contentHash := contentHash_create _ _
  madeOf := by
    rw [value_create]
    exact Value.madeOf_of_mem hr

theorem Sealed.join (h : e.Sealed rs) (hr : r ∈ rs) (hjoin : e.Joins r.candidate e') :
    e'.Sealed rs where
  contentHash := hjoin.contentHash.elim id fun ⟨hvalue, hhash⟩ => by
    rw [hhash, hvalue, h.contentHash]
  madeOf key text ht := (hjoin.only key text ht).elim (h.madeOf key text) fun ht => ⟨r, hr, ht⟩

/-- A record that is taken is held, if hashes tell the texts. -/
theorem Sealed.below_of_joins (h : e.Sealed rs) (htell : HashesTell rs) (hr : r ∈ rs)
    (hjoin : e.Joins r.candidate e') : r.value.Below e'.value := by
  refine hjoin.taken.elim id fun hhash => ?_
  have hsame : r.value = e.value :=
    htell _ _ (Value.madeOf_of_mem hr) h.madeOf (Eq.trans hhash h.contentHash)
  exact hsame ▸ hjoin.below

end Entry

/-! ## The entry of a record -/

namespace Database

variable {db db' : Database} {r x : Record} {rs : List Record}

/-- The entries that records of a kind are merged into. -/
def entriesFor (db : Database) (kind : RecordKind) : List Entry :=
  if kind = .autoInit then db.autoInit else db.entries

/-- The entry that a record is merged into. -/
def entryFor? (db : Database) (r : Record) : Option Entry :=
  entryOf? r.identifier (db.entriesFor r.kind)

theorem entryFor?_of_shares (h : x.Shares r) (db : Database) :
    db.entryFor? x = db.entryFor? r := by
  simp only [entryFor?, entriesFor, h.1, h.2]

/-- A record that is taken is merged into the entries of its kind. -/
theorem mergeOrAppend_entriesFor (ha : db.apply r = .ok db') :
    ∃ merge, (∀ e e', merge e r.candidate = .ok e' → e.Joins r.candidate e') ∧
      mergeOrAppend merge r.identifier r.candidate (db.entriesFor r.kind) =
        .ok (db'.entriesFor r.kind) ∧
      ∀ kind, ¬(kind = .autoInit ↔ r.kind = .autoInit) →
        db'.entriesFor kind = db.entriesFor kind := by
  by_cases hk : r.kind = .autoInit
  · rw [apply, hk] at ha
    obtain ⟨members, hm, rfl⟩ := map_eq_ok ha
    refine ⟨Entry.mergeMember, fun _ _ => Entry.joins_of_mergeMember, ?_, fun kind hkind => ?_⟩
    · simpa only [entriesFor, hk, if_true] using hm
    · simp only [hk, iff_true] at hkind
      simp only [entriesFor, hkind, if_false]
  · rw [apply_eq_upsert hk] at ha
    obtain ⟨entries, hm, rfl⟩ := map_eq_ok ha
    refine ⟨Entry.merge, fun _ _ => Entry.joins_of_merge, ?_, fun kind hkind => ?_⟩
    · simpa only [entriesFor, hk, if_false] using hm
    · simp only [hk, iff_false, Decidable.not_not] at hkind
      simp only [entriesFor, hkind, if_true]

/-- A record changes the entry that it is merged into, and no other one. -/
theorem entryFor?_of_apply (ha : db.apply r = .ok db') :
    ∃ e', (match db.entryFor? r with
        | none => e' = .create r.identifier r.candidate
        | some e => e.Joins r.candidate e') ∧
      ∀ x : Record, db'.entryFor? x = if x.Shares r then some e' else db.entryFor? x := by
  obtain ⟨merge, hmerge, hm, hothers⟩ := mergeOrAppend_entriesFor ha
  obtain ⟨e', hself, hlookup⟩ := entryOf?_of_mergeOrAppend (Entry.identifier_create ..)
    (fun e e' he => (hmerge e e' he).identifier) hm
  refine ⟨e', ?_, fun x => ?_⟩
  · cases he : db.entryFor? r with
    | none =>
      have he : entryOf? r.identifier (db.entriesFor r.kind) = none := he
      rwa [he] at hself
    | some e =>
      have he : entryOf? r.identifier (db.entriesFor r.kind) = some e := he
      rw [he] at hself
      exact hmerge e e' hself
  · by_cases hkind : x.kind = .autoInit ↔ r.kind = .autoInit
    · have hsame : ∀ db : Database, db.entriesFor x.kind = db.entriesFor r.kind := fun db => by
        simp only [entriesFor, hkind]
      simp only [entryFor?, hsame, hlookup, Record.Shares, hkind, and_true]
    · rw [if_neg fun hshares => hkind hshares.2, entryFor?, hothers _ hkind, entryFor?]

theorem entryFor?_apply_of_not_shares (ha : db.apply r = .ok db') (h : ¬x.Shares r) :
    db'.entryFor? x = db.entryFor? x := by
  obtain ⟨e', -, hlookup⟩ := entryFor?_of_apply ha
  exact (hlookup x).trans (if_neg h)

/-- The entry that a taken record is merged into was new, or took the record. -/
theorem entryFor?_apply_self (ha : db.apply r = .ok db') :
    ∃ e', (∀ x : Record, x.Shares r → db'.entryFor? x = some e') ∧
      (e' = .create r.identifier r.candidate ∨
        ∃ e, db.entryFor? r = some e ∧ e.Joins r.candidate e') := by
  obtain ⟨e', hself, hlookup⟩ := entryFor?_of_apply ha
  refine ⟨e', fun x hx => (hlookup x).trans (if_pos hx), ?_⟩
  cases he : db.entryFor? r with
  | none =>
    rw [he] at hself
    exact .inl hself
  | some e =>
    rw [he] at hself
    exact .inr ⟨e, rfl, hself⟩

/-! ## Sealed entries -/

/-- Every entry is sealed by the records that share it. -/
def Sealed (db : Database) (rs : List Record) : Prop :=
  ∀ x e, db.entryFor? x = some e → e.Sealed (sharing x rs)

theorem sealed_empty (fingerprint : String) (rs : List Record) :
    Sealed { fingerprint } rs := by
  intro x e he
  have hnil : entriesFor { fingerprint } x.kind = [] := ite_self _
  rw [entryFor?, hnil] at he
  cases he

theorem Sealed.apply (h : db.Sealed rs) (hr : r ∈ rs) (ha : db.apply r = .ok db') :
    db'.Sealed rs := by
  obtain ⟨e', hself, hmade⟩ := entryFor?_apply_self ha
  intro x e hx
  by_cases hshares : x.Shares r
  · obtain rfl := Option.some.inj (hx.symm.trans (hself x hshares))
    rw [hshares.sharing_eq]
    rcases hmade with rfl | ⟨e₀, he₀, hjoin⟩
    · exact Entry.sealed_create (mem_sharing_self hr)
    · exact (h r e₀ he₀).join (mem_sharing_self hr) hjoin
  · rw [entryFor?_apply_of_not_shares ha hshares] at hx
    exact h x e hx

/-! ## Held records -/

/-- The entry of the record holds its texts. -/
def Holds (db : Database) (r : Record) : Prop :=
  ∃ e, db.entryFor? r = some e ∧ r.value.Below e.value

/-- A record that is taken is held, if hashes tell the texts. -/
theorem holds_of_apply (h : db.Sealed rs) (hr : r ∈ rs) (htell : HashesTell (sharing r rs))
    (ha : db.apply r = .ok db') : db'.Holds r := by
  obtain ⟨e', hself, hmade⟩ := entryFor?_apply_self ha
  refine ⟨e', hself r (.refl r), ?_⟩
  rcases hmade with rfl | ⟨e, he, hjoin⟩
  · rw [Entry.value_create]
    exact .refl r.value
  · exact (h r e he).below_of_joins htell (mem_sharing_self hr) hjoin

/-- What is held stays held. -/
theorem Holds.apply (h : db.Holds x) (ha : db.apply r = .ok db') : db'.Holds x := by
  obtain ⟨e, he, hbelow⟩ := h
  by_cases hshares : x.Shares r
  · obtain ⟨e', hself, hlookup⟩ := entryFor?_of_apply ha
    rw [← entryFor?_of_shares hshares, he] at hself
    exact ⟨e', (hlookup x).trans (if_pos hshares), hbelow.trans hself.below⟩
  · exact ⟨e, (entryFor?_apply_of_not_shares ha hshares).trans he, hbelow⟩

theorem Holds.withFiles (h : db.Holds r) (files : TextMap FileRecords) :
    Holds { db with files } r := h

/-- The conflicts of a record are at its place. -/
theorem location_of_apply_eq_error {new : List Conflict} (ha : db.apply r = .error new)
    {c : Conflict} (hc : c ∈ new) : c.incoming.location = r.location := by
  by_cases hk : r.kind = .autoInit
  · rw [Database.apply, hk] at ha
    obtain ⟨e, -, he⟩ := mergeOrAppend_eq_error (map_eq_error ha)
    obtain ⟨x, rfl, hx⟩ := Entry.mergeMember_eq_error he
    obtain rfl := List.mem_singleton.1 hc
    exact hx
  · obtain ⟨e, -, he⟩ := merge_of_apply_eq_error hk ha
    obtain ⟨rfl, -⟩ := Entry.merge_eq_error he
    exact Entry.location_of_mem_conflicts hc

/-- Where no conflict is at the place of a record, the record is held after all. -/
theorem holds_applyAll {rs' : List Record} (h : db.Sealed rs) (hsub : rs' ⊆ rs) (hr : r ∈ rs')
    (htell : HashesTell (sharing r rs))
    (hnone : ∀ c ∈ (db.applyAll rs').2, c.incoming.location ≠ r.location) :
    (db.applyAll rs').1.Holds r := by
  induction rs' generalizing db with
  | nil => cases hr
  | cons x rs' ih =>
    obtain ⟨hx, hsub⟩ := List.cons_subset.1 hsub
    cases ha : db.apply x with
    | ok db' =>
      rw [applyAll_cons_of_ok ha] at hnone ⊢
      rcases List.mem_cons.1 hr with rfl | hr
      · -- the record is held, and the records behind it take nothing away
        exact applyAll_induction (holds_of_apply h hx htell ha) fun _ _ _ _ => Holds.apply
      · exact ih (h.apply hx ha) hsub hr hnone
    | error new =>
      rw [applyAll_cons_of_error ha] at hnone ⊢
      obtain ⟨hnew, hnone⟩ := List.forall_mem_append.1 hnone
      rcases List.mem_cons.1 hr with rfl | hr
      · -- a record that is rejected leaves a conflict at its place
        obtain ⟨c, hc⟩ := List.exists_mem_of_ne_nil new (conflicts_ne_nil_of_apply ha)
        exact absurd (location_of_apply_eq_error ha hc) (hnew c hc)
      · exact ih h hsub hr hnone

end Database

end FlashStrings
