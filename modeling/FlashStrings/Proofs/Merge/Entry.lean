import FlashStrings.Proofs.Digest.Content
import FlashStrings.Proofs.Merge.Keys

/-!
# What an entry is made of

An entry into which records were merged is described without their order.  It
*counts* them when its origin, its number of uses and its places are theirs
(`Entry.Counts`), and it *unites* them when it holds exactly their texts
(`Entry.Unites`).  Both hold of the entry that a first record makes, and a record
that is merged keeps both.

Counting needs nothing.  Uniting needs that equal hashes mean equal texts, since
a record with the hash of the entry is taken without a look at its texts.
-/

namespace FlashStrings

/-- No key has two different texts in the records. -/
def Record.Agrees (r r' : Record) : Prop :=
  ∀ key text text', r.value.at? key = some text → r'.value.at? key = some text' → text = text'

/-- The origin, the number of uses and the places are those of the records. -/
structure Entry.Counts (e : Entry) (rs : List Record) : Prop where
  /-- A definition has the authority over the entry. -/
  origin : e.origin = if rs.any (·.kind = .definition) then .fixed else .auto
  /-- The references are counted. -/
  usageCount : e.usageCount = rs.countP (·.kind = .reference)
  /-- The places of the references, in their order. -/
  references : e.references = (rs.filter (·.kind = .reference)).map (·.location)
  /-- The places that gave a value, in their order. -/
  definitions : e.definitions = (rs.filter (!·.value.isEmpty)).map (·.location)

/-- The texts are those of the records. -/
structure Entry.Unites (e : Entry) (rs : List Record) : Prop where
  /-- A text is there just when some record gives it. -/
  texts : ∀ key text, e.value.at? key = some text ↔ ∃ r ∈ rs, r.value.at? key = some text
  /-- The hash is that of the texts. -/
  contentHash : e.contentHash = e.value.contentHash

namespace Entry

variable {e e' : Entry} {c : Candidate} {r : Record} {rs : List Record}

/-! ## Promotion and accounts -/

theorem promote_eq (e : Entry) (c : Candidate) :
    e.promote c = { e with origin := if c.origin = .fixed then .fixed else e.origin } := by
  rw [promote]
  split <;> rfl

theorem account_eq (e : Entry) (c : Candidate) :
    e.account c = { e with
      usageCount := e.usageCount + if c.isReference then 1 else 0
      references := e.references ++ if c.isReference then [c.location] else []
      definitions := e.definitions ++ if c.value.isEmpty then [] else [c.location] } := by
  rw [account]
  cases c.isReference <;> cases c.value.isEmpty <;> simp

@[simp] theorem identifier_promote (e : Entry) (c : Candidate) :
    (e.promote c).identifier = e.identifier := by rw [promote_eq]

@[simp] theorem identifier_account (e : Entry) (c : Candidate) :
    (e.account c).identifier = e.identifier := by rw [account_eq]

@[simp] theorem identifier_adopt (e : Entry) (c : Candidate) :
    (e.adopt c).identifier = e.identifier := by
  obtain ⟨fallback, locales, h⟩ := e.adopt_eq c
  rw [h]

@[simp] theorem value_promote (e : Entry) (c : Candidate) : (e.promote c).value = e.value := by
  rw [promote_eq]
  rfl

@[simp] theorem value_account (e : Entry) (c : Candidate) : (e.account c).value = e.value := by
  rw [account_eq]
  rfl

@[simp] theorem contentHash_promote (e : Entry) (c : Candidate) :
    (e.promote c).contentHash = e.contentHash := by rw [promote_eq]

@[simp] theorem contentHash_account (e : Entry) (c : Candidate) :
    (e.account c).contentHash = e.contentHash := by rw [account_eq]

/-! ## How a candidate is merged -/

@[simp] theorem identifier_create (identifier : String) (c : Candidate) :
    (create identifier c).identifier = identifier := by
  simp only [create, refreshHash, identifier_account, identifier_adopt]
  rfl

/-- A candidate is taken as it is, or its texts are adopted. -/
theorem merge_eq_ok (h : e.merge c = .ok e') :
    ((c.value.isEmpty = true ∨ c.value.contentHash = e.contentHash) ∧
        e' = (e.promote c).account c) ∨
      (e.conflicts c = [] ∧ e' = ((e.adopt c).refreshHash.promote c).account c) := by
  rw [merge] at h
  split at h
  · next hfast =>
    rw [Bool.or_eq_true, beq_iff_eq] at hfast
    exact .inl ⟨hfast, (Except.ok.inj h).symm⟩
  · split at h
    · next hnil => exact .inr ⟨hnil, (Except.ok.inj h).symm⟩
    · cases h

/-- A candidate is rejected with its conflicts, and there are some. -/
theorem merge_eq_error {new : List Conflict} (h : e.merge c = .error new) :
    e.conflicts c = new ∧ new ≠ [] := by
  rw [merge] at h
  split at h
  · cases h
  · split at h
    · cases h
    · next hcons =>
      have heq := Except.error.inj h
      exact ⟨heq, heq ▸ hcons⟩

theorem identifier_of_merge (h : e.merge c = .ok e') : e'.identifier = e.identifier := by
  rcases merge_eq_ok h with ⟨-, rfl⟩ | ⟨-, rfl⟩
  · simp
  · simp [refreshHash]

/-- A member takes a candidate as it is. -/
theorem mergeMember_eq_ok (h : e.mergeMember c = .ok e') :
    c.value.contentHash = e.contentHash ∧ e' = e.account c := by
  rw [mergeMember] at h
  split at h
  · next hsame => exact ⟨beq_iff_eq.1 hsame, (Except.ok.inj h).symm⟩
  · cases h

/-- A member rejects a candidate with one conflict, at its place. -/
theorem mergeMember_eq_error {new : List Conflict} (h : e.mergeMember c = .error new) :
    ∃ x, new = [x] ∧ x.incoming.location = c.location := by
  rw [mergeMember] at h
  split at h
  · cases h
  · exact ⟨_, (Except.error.inj h).symm, rfl⟩

theorem identifier_of_mergeMember (h : e.mergeMember c = .ok e') :
    e'.identifier = e.identifier := by
  obtain ⟨-, rfl⟩ := mergeMember_eq_ok h
  exact e.identifier_account c

/-! ## Counting -/

/-- The entry and the other differ in their texts alone. -/
def SameCounts (e e' : Entry) : Prop :=
  e'.origin = e.origin ∧ e'.usageCount = e.usageCount ∧ e'.references = e.references ∧
    e'.definitions = e.definitions

theorem sameCounts_adopt (e : Entry) (c : Candidate) :
    SameCounts e (e.adopt c).refreshHash := by
  obtain ⟨fallback, locales, h⟩ := e.adopt_eq c
  rw [h]
  exact ⟨rfl, rfl, rfl, rfl⟩

/-- A record that is accounted for is counted. -/
theorem Counts.account (h : e.Counts rs) (hsame : SameCounts e e') (hkind : r.kind ≠ .autoInit) :
    ((e'.promote r.candidate).account r.candidate).Counts (rs ++ [r]) := by
  obtain ⟨horigin, husage, hreferences, hdefinitions⟩ := hsame
  rw [account_eq, promote_eq]
  constructor
  · cases hk : r.kind <;>
      simp_all [h.origin, Record.candidate, RecordKind.origin, List.any_append]
  · cases hk : r.kind <;> simp_all [h.usageCount, Record.candidate]
  · cases hk : r.kind <;> simp_all [h.references, Record.candidate]
  · cases hv : r.value.isEmpty <;> simp_all [h.definitions, Record.candidate]

theorem counts_create (hkind : r.kind ≠ .autoInit) :
    (create r.identifier r.candidate).Counts [r] := by
  obtain ⟨horigin, husage, hreferences, hdefinitions⟩ :=
    (blank r.identifier r.candidate.origin).sameCounts_adopt r.candidate
  rw [create, account_eq]
  constructor
  · rw [horigin]
    cases hk : r.kind <;> simp_all [blank, refreshHash, Record.candidate, RecordKind.origin]
  · cases hk : r.kind <;> simp_all [blank, refreshHash, Record.candidate]
  · cases hk : r.kind <;> simp_all [blank, refreshHash, Record.candidate]
  · cases hv : r.value.isEmpty <;> simp_all [blank, refreshHash, Record.candidate]

/-- A record that is merged is counted. -/
theorem Counts.merge (h : e.Counts rs) (hkind : r.kind ≠ .autoInit)
    (hm : e.merge r.candidate = .ok e') : e'.Counts (rs ++ [r]) := by
  rcases merge_eq_ok hm with ⟨-, rfl⟩ | ⟨-, rfl⟩
  · exact h.account ⟨rfl, rfl, rfl, rfl⟩ hkind
  · exact h.account (e.sameCounts_adopt r.candidate) hkind

/-! ## Uniting -/

theorem at?_value_blank (identifier : String) (origin : Origin) (key : Option String) :
    (blank identifier origin).value.at? key = none := by
  cases key <;> rfl

theorem unites_create (r : Record) : (create r.identifier r.candidate).Unites [r] := by
  constructor
  · intro key text
    simp [create, at?_value_adopt, at?_value_blank, Record.candidate]
  · simp [create]

/-- A record that is merged agrees with the others and is united with them. -/
theorem Unites.merge (h : e.Unites rs)
    (hhash : r.value.contentHash = e.value.contentHash → r.value = e.value)
    (hm : e.merge r.candidate = .ok e') :
    e'.Unites (rs ++ [r]) ∧ ∀ r' ∈ rs, r'.Agrees r := by
  rcases merge_eq_ok hm with ⟨hempty | hsame, rfl⟩ | ⟨hnil, rfl⟩
  · have hnone : ∀ key, r.value.at? key = none := Value.at?_eq_none_of_isEmpty hempty
    refine ⟨⟨fun key text => ?_, by simp [h.contentHash]⟩, fun r' _ key text text' _ hr => ?_⟩
    · simp [h.texts, hnone, or_and_right, exists_or]
    · rw [hnone] at hr
      cases hr
  · have heq : r.value = e.value := hhash (hsame.trans h.contentHash)
    refine ⟨⟨fun key text => ?_, by simp [h.contentHash]⟩, fun r' hr' key text text' ht hr => ?_⟩
    · simp [h.texts, heq, or_and_right, exists_or]
    · rw [heq, (h.texts key text).2 ⟨r', hr', ht⟩] at hr
      exact Option.some.inj hr
  · rw [conflicts_eq_nil_iff] at hnil
    refine ⟨⟨fun key text => ?_, by simp⟩, fun r' hr' key text text' ht hr => ?_⟩
    · simp only [value_account, value_promote, value_refreshHash, at?_value_adopt,
        List.mem_append, List.mem_singleton, or_and_right, exists_or, exists_eq_left, ← h.texts]
      cases he : e.value.at? key with
      | none => simp [Record.candidate]
      | some t =>
        simp only [Option.some_or, Option.some.injEq, iff_self_or]
        exact fun hr => hnil key t text he hr
    · exact hnil key text text' ((h.texts key text).2 ⟨r', hr', ht⟩) hr

/-- A record that is rejected does not agree with all others. -/
theorem Unites.not_agrees (h : e.Unites rs) {new : List Conflict}
    (hm : e.merge r.candidate = .error new) : ∃ r' ∈ rs, ¬r'.Agrees r := by
  by_cases hall : ∀ r' ∈ rs, r'.Agrees r
  · obtain ⟨heq, hne⟩ := merge_eq_error hm
    refine absurd (conflicts_eq_nil_iff.2 ?_) (heq ▸ hne)
    intro key text text' he hr
    obtain ⟨r', hr', ht⟩ := (h.texts key text).1 he
    exact hall r' hr' key text text' ht hr
  · simpa using hall

end Entry

end FlashStrings
