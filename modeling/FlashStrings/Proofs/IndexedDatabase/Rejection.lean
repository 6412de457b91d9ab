import FlashStrings.Proofs.IndexedDatabase.Consistent
import FlashStrings.Proofs.IndexedDatabase.InPlace

/-!
# Rejected records

A record is rejected just when it clashes with the entry of its identifier: a regular
entry holds another text under one of its keys, a member has another content
(`Entry.Clashes`).  The conflicts that are named are the keys with two texts, each
once and in their order (`Entry.mem_conflicts_iff`, `Entry.pairwise_conflicts`).

The shortcut over the hash hides no clash as long as equal hashes mean equal contents,
and the merge in place writes nothing before all keys are compared.  So a rejected
record leaves the whole database as it was, and one that is taken changes the entry of
its identifier alone (`IndexedDatabase.Reachable.rejects_iff_clashes`).
-/

namespace FlashStrings

/-- The order of the keys of a value: the fallback, then the locale codes. -/
def KeyBefore : Option String → Option String → Prop
  | none, some _ => True
  | some code, some code' => code < code'
  | _, none => False

namespace Entry

/-- The record gives another text to a key of a regular entry, or another content than
that of a member. -/
def Clashes (e : Entry) (r : Record) : Prop :=
  if r.kind = .autoInit then r.value ≠ e.value
  else ∃ key stored given, e.at? key = some stored ∧ r.value.at? key = some given ∧
    stored.text ≠ given

/-- The conflict says what the entry holds under a key, and which other text the record
gives to it. -/
structure ClashesAt (e : Entry) (r : Record) (x : Conflict) : Prop where
  identifier : x.identifier = r.identifier
  existing : e.at? x.locale = some x.existing
  incoming : r.value.at? x.locale = some x.incoming.text
  location : x.incoming.location = r.location
  differs : x.existing.text ≠ x.incoming.text

/-- The conflicts name every clash of the record with the entry and nothing else. -/
inductive RefusedWith (e : Entry) (r : Record) : List Conflict → Prop where
  /-- The keys with two texts, in their order. -/
  | keys {new : List Conflict} : r.kind ≠ .autoInit → (∀ x, x ∈ new ↔ e.ClashesAt r x) →
    new.Pairwise (fun x y => KeyBefore x.locale y.locale) → RefusedWith e r new
  /-- The whole content of a member. -/
  | content : r.kind = .autoInit → RefusedWith e r [{
      identifier := r.identifier
      locale := none
      existing := ⟨e.describe, e.firstLocation?.getD r.location⟩
      incoming := ⟨r.value.describe, r.location⟩ }]

variable {e : Entry} {c : Candidate} {r : Record}

/-! ## Conflicts -/

theorem mem_conflicts_iff {x : Conflict} :
    x ∈ e.conflicts c ↔ x.identifier = e.identifier ∧ e.at? x.locale = some x.existing ∧
      c.value.at? x.locale = some x.incoming.text ∧ x.incoming.location = c.location ∧
      x.existing.text ≠ x.incoming.text := by
  rw [conflicts, List.mem_filterMap]
  constructor
  · rintro ⟨⟨key, text⟩, hmem, hx⟩
    obtain ⟨existing, hexisting, hx⟩ := Option.bind_eq_some_iff.1 hx
    split at hx
    · cases hx
    · next hne =>
      obtain rfl := Option.some.inj hx
      exact ⟨rfl, hexisting, Value.mem_texts_iff.1 hmem, rfl, hne⟩
  · rintro ⟨hidentifier, hexisting, hincoming, hlocation, hne⟩
    refine ⟨(x.locale, x.incoming.text), Value.mem_texts_iff.2 hincoming, ?_⟩
    obtain ⟨identifier, locale, existing, ⟨text, location⟩⟩ := x
    dsimp only at hidentifier hexisting hlocation hne
    simp [hexisting, hne, hidentifier, hlocation]

/-- The texts of a value stand in the order of their keys. -/
theorem pairwise_texts (v : Value) : v.texts.Pairwise fun x y => KeyBefore x.1 y.1 := by
  rw [Value.texts, List.pairwise_append]
  refine ⟨?_, List.pairwise_map.2 v.locales.sorted, fun x hx y hy => ?_⟩
  · cases v.fallback with
    | none => exact .nil
    | some text => exact List.pairwise_singleton _ _
  · obtain ⟨text, -, rfl⟩ := List.mem_map.1 hx
    obtain ⟨z, -, rfl⟩ := List.mem_map.1 hy
    trivial

/-- The conflicts stand in the order of their keys. -/
theorem pairwise_conflicts (e : Entry) (c : Candidate) :
    (e.conflicts c).Pairwise fun x y => KeyBefore x.locale y.locale := by
  refine (pairwise_texts c.value).filterMap _ fun x x' hbefore y hy y' hy' => ?_
  have hlocale : ∀ {x : Option String × String} {y : Conflict}, (do
      let existing ← e.at? x.1
      if existing.text = x.2 then none
      else some { identifier := e.identifier, locale := x.1, existing,
                  incoming := ⟨x.2, c.location⟩ }) = some y → y.locale = x.1 := by
    intro x y hy
    obtain ⟨existing, -, hy⟩ := Option.bind_eq_some_iff.1 hy
    split at hy
    · cases hy
    · rw [← Option.some.inj hy]
  rw [hlocale hy, hlocale hy']
  exact hbefore

theorem clashes_iff_conflicts (hk : r.kind ≠ .autoInit) :
    e.Clashes r ↔ e.conflicts r.candidate ≠ [] := by
  rw [Clashes, if_neg hk]
  constructor
  · rintro ⟨key, stored, given, hstored, hgiven, hne⟩
    refine List.ne_nil_of_mem (a := ⟨e.identifier, key, stored, ⟨given, r.location⟩⟩) ?_
    exact mem_conflicts_iff.2 ⟨rfl, hstored, hgiven, rfl, hne⟩
  · intro hne
    obtain ⟨x, hx⟩ := List.exists_mem_of_ne_nil _ hne
    obtain ⟨-, hstored, hgiven, -, hne⟩ := mem_conflicts_iff.1 hx
    exact ⟨x.locale, x.existing, x.incoming.text, hstored, hgiven, hne⟩

theorem mem_conflicts_iff_clashesAt (hid : e.identifier = r.identifier) {x : Conflict} :
    x ∈ e.conflicts r.candidate ↔ e.ClashesAt r x := by
  rw [mem_conflicts_iff, hid]
  exact ⟨fun ⟨hidentifier, hexisting, hincoming, hlocation, hdiffers⟩ =>
      ⟨hidentifier, hexisting, hincoming, hlocation, hdiffers⟩,
    fun h => ⟨h.identifier, h.existing, h.incoming, h.location, h.differs⟩⟩

theorem refusedWith_conflicts (hk : r.kind ≠ .autoInit) (hid : e.identifier = r.identifier) :
    e.RefusedWith r (e.conflicts r.candidate) :=
  .keys hk (fun _ => mem_conflicts_iff_clashesAt hid) (e.pairwise_conflicts r.candidate)

/-! ## One entry -/

theorem refusedWith_of_merge (hk : r.kind ≠ .autoInit) (hid : e.identifier = r.identifier)
    {new : List Conflict} (hm : e.merge r.candidate = .error new) : e.RefusedWith r new :=
  (merge_eq_error hm).1 ▸ refusedWith_conflicts hk hid

theorem refusedWith_of_mergeMember (hk : r.kind = .autoInit) (hid : e.identifier = r.identifier)
    {new : List Conflict} (hm : e.mergeMember r.candidate = .error new) :
    e.RefusedWith r new := by
  rw [mergeMember] at hm
  split at hm
  · cases hm
  · rw [← Except.error.inj hm, hid]
    exact .content hk

/-- A merge into the entry of its identifier rejects the record just when they clash. -/
structure Decides (merge : Entry → Candidate → Except (List Conflict) Entry) (r : Record)
    (e : Entry) : Prop where
  refuses : ∀ new, merge e r.candidate = .error new → e.Clashes r ∧ e.RefusedWith r new
  takes : ∀ e', merge e r.candidate = .ok e' → ¬e.Clashes r ∧ e'.identifier = e.identifier

theorem decides_merge (hk : r.kind ≠ .autoInit) (hid : e.identifier = r.identifier)
    (hhash : e.contentHash = e.value.contentHash)
    (htell : r.value.contentHash = e.value.contentHash → r.value = e.value) :
    Decides merge r e := by
  refine ⟨fun new hm => ?_, fun e' hm => ⟨?_, identifier_of_merge hm⟩⟩
  · obtain ⟨heq, hne⟩ := merge_eq_error hm
    exact ⟨(clashes_iff_conflicts hk).2 (heq ▸ hne), refusedWith_of_merge hk hid hm⟩
  · rw [merge_eq_mergeByKeys (c := r.candidate) hhash htell, mergeByKeys] at hm
    rw [clashes_iff_conflicts hk, Decidable.not_not]
    cases hconflicts : e.conflicts r.candidate with
    | nil => rfl
    | cons x new =>
      rw [hconflicts] at hm
      cases hm

theorem decides_mergeMember (hk : r.kind = .autoInit) (hid : e.identifier = r.identifier)
    (hhash : e.contentHash = e.value.contentHash)
    (htell : r.value.contentHash = e.value.contentHash → r.value = e.value) :
    Decides mergeMember r e := by
  have hclashes : e.Clashes r ↔ r.value ≠ e.value := by rw [Clashes, if_pos hk]
  refine ⟨fun new hm => ?_, fun e' hm => ⟨?_, identifier_of_mergeMember hm⟩⟩
  · refine ⟨hclashes.2 fun heq => ?_, refusedWith_of_mergeMember hk hid hm⟩
    have hsame : (r.candidate.value.contentHash == e.value.contentHash) = true :=
      beq_iff_eq.2 (congrArg Value.contentHash heq)
    rw [mergeMember, hhash, if_pos hsame] at hm
    cases hm
  · obtain ⟨hsame, -⟩ := mergeMember_eq_ok hm
    rw [hclashes, Decidable.not_not]
    exact htell (hsame.trans hhash)

end Entry

/-! ## One list -/

/-- The second list is the first one with one entry of the identifier more, or with
another entry in place of that of the identifier. -/
inductive ChangesOne (identifier : String) (es : List Entry) : List Entry → Prop where
  | appended {e : Entry} : identifier ∉ identifiers es → e.identifier = identifier →
    ChangesOne identifier es (es ++ [e])
  | merged {e e' : Entry} {i : Nat} : es[i]? = some e → e.identifier = identifier →
    e'.identifier = identifier → ChangesOne identifier es (es.set i e')

section

variable {merge : Entry → Candidate → Except (List Conflict) Entry} {r : Record}
  {es es' : List Entry}

theorem clashes_of_mergeOrAppend
    (h : ∀ e ∈ es, e.identifier = r.identifier → e.Decides merge r) {new : List Conflict}
    (hm : mergeOrAppend merge r.identifier r.candidate es = .error new) :
    ∃ e ∈ es, e.identifier = r.identifier ∧ e.Clashes r ∧ e.RefusedWith r new := by
  obtain ⟨e, he, hnew⟩ := mergeOrAppend_eq_error hm
  have hid := identifier_of_entryOf? he
  have hmem := mem_of_entryOf? he
  exact ⟨e, hmem, hid, (h e hmem hid).refuses new hnew⟩

theorem changesOne_of_mergeOrAppend (hdistinct : (identifiers es).Nodup)
    (h : ∀ e ∈ es, e.identifier = r.identifier → e.Decides merge r)
    (hm : mergeOrAppend merge r.identifier r.candidate es = .ok es') :
    (∀ e ∈ es, e.identifier = r.identifier → ¬e.Clashes r) ∧ ChangesOne r.identifier es es' := by
  rcases mergeOrAppend_eq_ok hm with ⟨hnone, rfl⟩ | ⟨e, e', i, he, hmerge, -, hi, rfl⟩
  · have hnew := entryOf?_eq_none_iff.1 hnone
    refine ⟨fun e he hid => absurd ?_ hnew, .appended hnew (Entry.identifier_create ..)⟩
    exact List.mem_map.2 ⟨e, he, hid⟩
  · have hid := identifier_of_entryOf? he
    have hdecides := (h e (mem_of_entryOf? he) hid).takes e' hmerge
    refine ⟨fun e₁ he₁ hid₁ => ?_, .merged hi hid (hdecides.2.trans hid)⟩
    have hsame := (entryOf?_eq_some_iff_mem hdistinct).2 he₁
    rw [hid₁, he] at hsame
    exact Option.some.inj hsame ▸ hdecides.1

end

/-! ## Databases -/

/-- The list that records of a kind belong to. -/
def Database.listOf (db : Database) : RecordKind → List Entry
  | .autoInit => db.autoInit
  | .definition | .reference => db.entries

/-- Nothing but the entry of the record's identifier in its list is new. -/
structure Database.ChangesOnly (db after : Database) (r : Record) : Prop where
  list : ChangesOne r.identifier (db.listOf r.kind) (after.listOf r.kind)
  /-- The other list is as it was. -/
  others : ∀ kind, (kind = .autoInit ↔ r.kind ≠ .autoInit) → after.listOf kind = db.listOf kind
  fingerprint : after.fingerprint = db.fingerprint
  files : after.files = db.files

/-- A rejected record is refused by the entry of its identifier in its list. -/
theorem Database.refusedWith_of_apply {db : Database} {r : Record} {new : List Conflict}
    (ha : db.apply r = .error new) :
    ∃ e ∈ db.listOf r.kind, e.identifier = r.identifier ∧ e.RefusedWith r new := by
  cases hk : r.kind with
  | autoInit =>
    rw [apply, hk] at ha
    obtain ⟨e, he, hm⟩ := mergeOrAppend_eq_error (map_eq_error ha)
    have hid := identifier_of_entryOf? he
    exact ⟨e, mem_of_entryOf? he, hid, Entry.refusedWith_of_mergeMember hk hid hm⟩
  | definition | reference =>
    have hne : r.kind ≠ .autoInit := by simp [hk]
    obtain ⟨e, he, hm⟩ := merge_of_apply_eq_error hne ha
    have hid := identifier_of_entryOf? he
    exact ⟨e, mem_of_entryOf? he, hid, Entry.refusedWith_of_merge hne hid hm⟩

theorem Database.decides_of_apply {db : Database} {r : Record} (h : db.Consistent)
    (htell : ∀ e ∈ db.listOf r.kind,
      r.value.contentHash = e.value.contentHash → r.value = e.value) :
    (∀ new, db.apply r = .error new → ∃ e ∈ db.listOf r.kind,
      e.identifier = r.identifier ∧ e.Clashes r ∧ e.RefusedWith r new) ∧
      ∀ after, db.apply r = .ok after →
        (∀ e ∈ db.listOf r.kind, e.identifier = r.identifier → ¬e.Clashes r) ∧
          db.ChangesOnly after r := by
  cases hk : r.kind with
  | autoInit =>
    rw [hk] at htell
    have hdecides : ∀ e ∈ db.autoInit, e.identifier = r.identifier →
        e.Decides Entry.mergeMember r := fun e he hid =>
      Entry.decides_mergeMember hk hid (h.members e he).contentHash (htell e he)
    rw [apply, hk]
    refine ⟨fun new ha => clashes_of_mergeOrAppend hdecides (map_eq_error ha), fun after ha => ?_⟩
    obtain ⟨members, hm, rfl⟩ := map_eq_ok ha
    obtain ⟨hclash, hone⟩ := changesOne_of_mergeOrAppend h.membersDistinct hdecides hm
    refine ⟨hclash, by rwa [hk], fun kind hkind => ?_, rfl, rfl⟩
    cases kind with
    | autoInit => exact absurd hk (hkind.1 rfl)
    | definition | reference => rfl
  | definition | reference =>
    have hne : r.kind ≠ .autoInit := by simp [hk]
    rw [hk] at htell
    have hdecides : ∀ e ∈ db.entries, e.identifier = r.identifier → e.Decides Entry.merge r :=
      fun e he hid => Entry.decides_merge hne hid (h.entries e he).contentHash (htell e he)
    rw [apply_eq_upsert hne]
    refine ⟨fun new ha => clashes_of_mergeOrAppend hdecides (map_eq_error ha), fun after ha => ?_⟩
    obtain ⟨entries, hm, rfl⟩ := map_eq_ok ha
    obtain ⟨hclash, hone⟩ := changesOne_of_mergeOrAppend h.entriesDistinct hdecides hm
    refine ⟨hclash, by rwa [hk], fun kind hkind => ?_, rfl, rfl⟩
    cases kind with
    | autoInit => rfl
    | definition | reference => cases hkind.2 hne

/-- A record is rejected just when it clashes with the entry of its identifier.  The
conflicts name its clashes, and the database with its indices is as it was.  A record
that is taken changes that entry alone. -/
theorem IndexedDatabase.Reachable.rejects_iff_clashes {allowed : Location → Prop}
    {db : IndexedDatabase} (h : Reachable allowed db) {hashed : Bytes → Prop}
    (hfree : CollisionFree hashed) {r : Record} (hvalue : r.value.NulFree)
    (hmessage : hashed r.value.message)
    (hlist : ∀ e ∈ db.database.listOf r.kind, e.value.NulFree ∧ hashed e.value.message) :
    ∃ ending, db.applyInPlace r = some ending ∧
      ((∃ new after, ending = .error new after) ↔
        ∃ e ∈ db.database.listOf r.kind, e.identifier = r.identifier ∧ e.Clashes r) ∧
      (∀ new after, ending = .error new after → after = db ∧
        ∃ e ∈ db.database.listOf r.kind, e.identifier = r.identifier ∧ e.RefusedWith r new) ∧
      ∀ after, ending = .ok () after → db.database.ChangesOnly after.database r ∧
        ∀ identifier ≠ r.identifier, after.lookup? identifier = db.lookup? identifier := by
  have htell : ∀ e ∈ db.database.listOf r.kind,
      r.value.contentHash = e.value.contentHash → r.value = e.value := fun e he =>
    Value.eq_of_contentHash_eq hfree hvalue (hlist e he).1 hmessage (hlist e he).2
  obtain ⟨hrefuses, htakes⟩ := Database.decides_of_apply h.consistent_database htell
  refine ⟨_, by rw [applyInPlace_eq, h.apply_eq, Option.map_some], ?_⟩
  cases ha : db.database.apply r with
  | error new =>
    obtain ⟨e, he, hid, hclash, hrefused⟩ := hrefuses new ha
    refine ⟨⟨fun _ => ⟨e, he, hid, hclash⟩, fun _ => ⟨new, db, rfl⟩⟩, ?_, nofun⟩
    rintro _ _ ⟨⟩
    exact ⟨rfl, e, he, hid, hrefused⟩
  | ok after =>
    obtain ⟨hclash, honly⟩ := htakes after ha
    refine ⟨⟨nofun, fun ⟨e, he, hid, hclashes⟩ => absurd hclashes (hclash e he hid)⟩, nofun, ?_⟩
    rintro _ ⟨⟩
    refine ⟨honly, fun identifier hne => ?_⟩
    rw [h.eq_ofDatabase, lookup?_ofDatabase, lookup?_ofDatabase]
    exact Database.lookup?_apply_of_ne ha (.inr hne)

/-! ### One key that clashes and one that is new -/

namespace IndexedDatabase

/-- A definition with a fallback and a text for one locale. -/
def firstTexts : Record :=
  { identifier := "A", kind := .definition, value := twoTexts, location := ⟨"a.cpp", 1, 1⟩ }

/-- A use that gives another text to this locale, and a text to a second one. -/
def laterTexts : Record :=
  { identifier := "A", kind := .reference, location := ⟨"b.cpp", 2, 3⟩
    value := { fallback := some "x", locales := .ofList [("bg", "v"), ("de", "z")] } }

/-- The database of the definition. -/
def defined : IndexedDatabase :=
  ofDatabase { entries := [.create firstTexts.identifier firstTexts.candidate] }

theorem reachable_defined : Reachable (fun _ => True) defined :=
  .apply (r := firstTexts) .empty trivial (apply_ofDatabase {} firstTexts)

/-- The use is rejected for the one key, and the text for the other is not taken. -/
theorem rejects_laterTexts : ∃ new, defined.applyInPlace laterTexts = some (.error new defined) ∧
    ∀ x, x ∈ new ↔ x = ⟨"A", some "de", ⟨"y", ⟨"a.cpp", 1, 1⟩⟩, ⟨"z", ⟨"b.cpp", 2, 3⟩⟩⟩ := by
  have hentry : (Entry.create firstTexts.identifier firstTexts.candidate).value = twoTexts :=
    Entry.value_create _ _
  have hnul : twoTexts.NulFree ∧ laterTexts.value.NulFree := by
    constructor <;> exact ⟨by rintro _ ⟨⟩; decide, by decide⟩
  have hne : sha256Hex twoTexts.message ≠ sha256Hex laterTexts.value.message := by decide +kernel
  have hfree : CollisionFree fun m => m = twoTexts.message ∨ m = laterTexts.value.message := by
    rintro a b (rfl | rfl) (rfl | rfl) h
    · rfl
    · exact absurd h hne
    · exact absurd h.symm hne
    · rfl
  have hlist : ∀ e ∈ defined.database.listOf laterTexts.kind, e.value.NulFree ∧
      (e.value.message = twoTexts.message ∨ e.value.message = laterTexts.value.message) :=
    List.forall_mem_singleton.2 (hentry ▸ ⟨hnul.1, .inl rfl⟩)
  obtain ⟨ending, heq, hiff, hrefused, -⟩ :=
    reachable_defined.rejects_iff_clashes hfree hnul.2 (.inr rfl) hlist
  have hclashes : (Entry.create firstTexts.identifier firstTexts.candidate).Clashes laterTexts :=
    ⟨some "de", ⟨"y", ⟨"a.cpp", 1, 1⟩⟩, "z", by decide +kernel, by decide +kernel, by decide⟩
  obtain ⟨new, after, rfl⟩ := hiff.2 ⟨_, List.mem_singleton.2 rfl, rfl, hclashes⟩
  obtain ⟨rfl, e, he, -, hkeys⟩ := hrefused new after rfl
  obtain rfl := List.mem_singleton.1 he
  refine ⟨new, heq, fun x => ?_⟩
  cases hkeys with
  | content hk => cases hk
  | keys _ hmem _ =>
    have hconflicts : (Entry.create firstTexts.identifier firstTexts.candidate).conflicts
        laterTexts.candidate =
        [⟨"A", some "de", ⟨"y", ⟨"a.cpp", 1, 1⟩⟩, ⟨"z", ⟨"b.cpp", 2, 3⟩⟩⟩] := by
      decide +kernel
    rw [hmem, ← Entry.mem_conflicts_iff_clashesAt rfl, hconflicts, List.mem_singleton]

end IndexedDatabase

end FlashStrings
