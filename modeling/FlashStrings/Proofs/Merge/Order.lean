import FlashStrings.Proofs.Merge.Apply

/-!
# The order of records

Records of definitions and references are all taken just when no two of one
identifier give different texts to one key, and then every entry is described by
the records of its identifier without their order.  So every order of the records
gives the same entries, up to the order of places (`Database.apply_order_independent`).

A hash stands for the texts only as long as SHA-256 has no collision among the
messages of values made of the texts of the records (`ContentMessage`), and as
long as messages can be read back.
-/

namespace FlashStrings

/-- Every text of the value is one of a record, under the same key. -/
def Value.MadeOf (v : Value) (rs : List Record) : Prop :=
  ∀ key text, v.at? key = some text → ∃ r ∈ rs, r.value.at? key = some text

/-- The messages of values that are made of texts of the records. -/
def ContentMessage (rs : List Record) (m : Bytes) : Prop := ∃ v : Value, v.MadeOf rs ∧ v.message = m

/-- Equal hashes mean equal texts, for values made of texts of the records. -/
def HashesTell (rs : List Record) : Prop :=
  ∀ v w : Value, v.MadeOf rs → w.MadeOf rs → v.contentHash = w.contentHash → v = w

/-- No two records of one identifier give different texts to one key. -/
def AllAgree (rs : List Record) : Prop :=
  ∀ r ∈ rs, ∀ r' ∈ rs, r.identifier = r'.identifier → r.Agrees r'

/-- The entries are the same up to the order of places. -/
structure Entry.SameMerge (e e' : Entry) : Prop where
  /-- The texts are the same. -/
  value : e.value = e'.value
  /-- The origin is the same. -/
  origin : e.origin = e'.origin
  /-- The number of uses is the same. -/
  usageCount : e.usageCount = e'.usageCount
  /-- The places of references are the same. -/
  references : e.references.Perm e'.references
  /-- The places that gave a value are the same. -/
  definitions : e.definitions.Perm e'.definitions

/-! ## Hashes -/

theorem Value.MadeOf.mono {v : Value} {rs rs' : List Record} (h : v.MadeOf rs) (hsub : rs ⊆ rs') :
    v.MadeOf rs' := by
  intro key text ht
  obtain ⟨r, hr, hrt⟩ := h key text ht
  exact ⟨r, hsub hr, hrt⟩

theorem Value.madeOf_of_mem {rs : List Record} {r : Record} (h : r ∈ rs) : r.value.MadeOf rs :=
  fun _ _ ht => ⟨r, h, ht⟩

theorem Entry.Unites.madeOf {e : Entry} {rs : List Record} (h : e.Unites rs) : e.value.MadeOf rs :=
  fun key text ht => (h.texts key text).1 ht

/-- A value made of texts without U+0000 has none. -/
theorem Value.MadeOf.nulFree {v : Value} {rs : List Record} (h : v.MadeOf rs)
    (hnul : ∀ r ∈ rs, r.value.NulFree) : v.NulFree := by
  constructor
  · intro text ht
    obtain ⟨r, hr, hrt⟩ := h none text ht
    exact (hnul r hr).1 text hrt
  · rintro ⟨code, text⟩ he
    obtain ⟨r, hr, hrt⟩ := h (some code) text (SortedMap.get?_eq_some_iff.2 he)
    exact (hnul r hr).2 _ (SortedMap.get?_eq_some_iff.1 hrt)

theorem hashesTell_of_collisionFree {rs : List Record} (hnul : ∀ r ∈ rs, r.value.NulFree)
    (hfree : CollisionFree (ContentMessage rs)) : HashesTell rs := by
  intro v w hv hw h
  exact Value.eq_of_contentHash_eq hfree (hv.nulFree hnul) (hw.nulFree hnul) ⟨v, hv, rfl⟩
    ⟨w, hw, rfl⟩ h

/-! ## Permutations -/

theorem AllAgree.perm {rs rs' : List Record} (h : AllAgree rs) (hperm : rs.Perm rs') :
    AllAgree rs' := fun r hr r' hr' => h r (hperm.mem_iff.2 hr) r' (hperm.mem_iff.2 hr')

/-- Entries that count and unite the same records in some order are the same. -/
theorem Entry.sameMerge_of_perm {e e' : Entry} {rs rs' : List Record} (hperm : rs.Perm rs')
    (hc : e.Counts rs) (hu : e.Unites rs) (hc' : e'.Counts rs') (hu' : e'.Unites rs') :
    e.SameMerge e' where
  value := by
    refine Value.ext_at? fun key => Option.ext fun text => ?_
    rw [hu.texts, hu'.texts]
    simp only [hperm.mem_iff]
  origin := by rw [hc.origin, hc'.origin, hperm.any_eq]
  usageCount := by rw [hc.usageCount, hc'.usageCount, hperm.countP_eq]
  references := by
    rw [hc.references, hc'.references]
    exact (hperm.filter _).map _
  definitions := by
    rw [hc.definitions, hc'.definitions]
    exact (hperm.filter _).map _

namespace Database

/-! ## All records -/

/-- One more record is taken just when it agrees with those before it. -/
theorem apply_step {db : Database} {taken : List Record} {r : Record} (hk : r.kind ≠ .autoInit)
    (htell : HashesTell (taken ++ [r])) (hc : db.Counts taken) (hu : db.Unites taken) :
    (∃ db', db.apply r = .ok db' ∧ db'.Counts (taken ++ [r]) ∧ db'.Unites (taken ++ [r]) ∧
        ∀ r' ∈ recordsFor r.identifier taken, r'.Agrees r) ∨
      ((∃ new, db.apply r = .error new) ∧
        ∃ r' ∈ recordsFor r.identifier taken, ¬r'.Agrees r) := by
  have hhash : ∀ e, db.lookup? r.identifier = some e →
      r.value.contentHash = e.value.contentHash → r.value = e.value := by
    intro e he hsame
    refine htell _ _ (Value.madeOf_of_mem (by simp)) ((hu _ e he).madeOf.mono ?_) hsame
    intro x hx
    exact List.mem_append_left _ (mem_recordsFor.1 hx).1
  cases ha : db.apply r with
  | ok db' =>
    obtain ⟨hu', hagree⟩ := hu.apply hc hk hhash ha
    exact .inl ⟨db', rfl, hc.apply ha, hu', hagree⟩
  | error new => exact .inr ⟨⟨new, rfl⟩, hu.not_agrees hk ha⟩

/-- Records that agree with each other and with those before them are all taken. -/
theorem foldlM_apply_of_allAgree {db : Database} (taken : List Record) {rs : List Record}
    (hk : ∀ r ∈ rs, r.kind ≠ .autoInit) (htell : HashesTell (taken ++ rs))
    (hagree : AllAgree (taken ++ rs)) (hc : db.Counts taken) (hu : db.Unites taken) :
    ∃ db', rs.foldlM apply db = .ok db' ∧ db'.Counts (taken ++ rs) ∧ db'.Unites (taken ++ rs) := by
  induction rs generalizing db taken with
  | nil =>
    rw [List.append_nil]
    exact ⟨db, rfl, hc, hu⟩
  | cons r rs ih =>
    have hsplit : taken ++ r :: rs = taken ++ [r] ++ rs := by simp
    rw [hsplit] at htell hagree ⊢
    have htell' : HashesTell (taken ++ [r]) := fun v w hv hw =>
      htell v w (hv.mono (List.subset_append_left _ _)) (hw.mono (List.subset_append_left _ _))
    rcases apply_step (hk r List.mem_cons_self) htell' hc hu with
      ⟨db', ha, hc', hu', -⟩ | ⟨-, r', hr', hnot⟩
    · obtain ⟨db'', hrest, hall⟩ := ih _ (fun x hx => hk x (List.mem_cons_of_mem _ hx)) htell hagree
        hc' hu'
      refine ⟨db'', ?_, hall⟩
      rw [List.foldlM_cons, ha]
      exact hrest
    · obtain ⟨hmem, hid, -⟩ := mem_recordsFor.1 hr'
      exact absurd (hagree r' (by simp [hmem]) r (by simp) hid) hnot

/-- Records that are all taken agree with each other and with those before them. -/
theorem allAgree_of_foldlM_apply {db db' : Database} (taken : List Record) {rs : List Record}
    (hk : ∀ r ∈ taken ++ rs, r.kind ≠ .autoInit) (htell : HashesTell (taken ++ rs))
    (hagree : AllAgree taken) (hc : db.Counts taken) (hu : db.Unites taken)
    (h : rs.foldlM apply db = .ok db') : AllAgree (taken ++ rs) := by
  induction rs generalizing db taken with
  | nil => rwa [List.append_nil]
  | cons r rs ih =>
    have hsplit : taken ++ r :: rs = taken ++ [r] ++ rs := by simp
    rw [hsplit] at htell hk ⊢
    have htell' : HashesTell (taken ++ [r]) := fun v w hv hw =>
      htell v w (hv.mono (List.subset_append_left _ _)) (hw.mono (List.subset_append_left _ _))
    rw [List.foldlM_cons] at h
    rcases apply_step (hk r (by simp)) htell' hc hu with
      ⟨db₁, ha, hc', hu', hnew⟩ | ⟨⟨new, ha⟩, -⟩
    · rw [ha] at h
      refine ih _ hk htell ?_ hc' hu' h
      have hlast : ∀ x ∈ taken, x.identifier = r.identifier → x.Agrees r := fun x hx hid =>
        hnew x (mem_recordsFor.2 ⟨hx, hid, hk x (by simp [hx])⟩)
      intro x hx y hy hid
      rcases List.mem_append.1 hx with hxt | hxr <;> rcases List.mem_append.1 hy with hyt | hyr
      · exact hagree x hxt y hyt hid
      · obtain rfl := List.mem_singleton.1 hyr
        exact hlast x hxt hid
      · obtain rfl := List.mem_singleton.1 hxr
        exact fun key text text' h₁ h₂ => (hlast y hyt hid.symm key text' text h₂ h₁).symm
      · obtain rfl := List.mem_singleton.1 hxr
        obtain rfl := List.mem_singleton.1 hyr
        exact fun key text text' h₁ h₂ => Option.some.inj (h₁.symm.trans h₂)
    · rw [ha] at h
      cases h

/-! ## All orders -/

/-- Records that are all taken give every order of them the same entries. -/
theorem rel_lookup?_of_perm {db db' : Database} {rs rs' : List Record} (hperm : rs.Perm rs')
    (hc : db.Counts rs) (hu : db.Unites rs) (hc' : db'.Counts rs') (hu' : db'.Unites rs')
    (identifier : String) :
    Option.Rel Entry.SameMerge (db.lookup? identifier) (db'.lookup? identifier) := by
  have hfor : (recordsFor identifier rs).Perm (recordsFor identifier rs') := hperm.filter _
  have hnone : db.lookup? identifier = none ↔ db'.lookup? identifier = none := by
    rw [hc.lookup, hc'.lookup]
    exact ⟨fun h => List.nil_perm.1 (h ▸ hfor), fun h => List.perm_nil.1 (h ▸ hfor)⟩
  cases he : db.lookup? identifier with
  | none =>
    rw [hnone.1 he]
    exact .none
  | some e =>
    cases he' : db'.lookup? identifier with
    | none => exact absurd (he.symm.trans (hnone.2 he')) nofun
    | some e' =>
      exact .some (Entry.sameMerge_of_perm hfor (hc.counts _ e he) (hu _ e he) (hc'.counts _ e' he')
        (hu' _ e' he'))

/-- Records of definitions and references are all taken just when those of one
identifier agree.  Then each identifier with a record has an entry that counts
and unites its records, and every order of the records gives the same entries. -/
theorem apply_order_independent {rs : List Record} (hkind : ∀ r ∈ rs, r.kind ≠ .autoInit)
    (hnul : ∀ r ∈ rs, r.value.NulFree) (hfree : CollisionFree (ContentMessage rs)) :
    ((∃ db, rs.foldlM apply {} = .ok db) ↔ AllAgree rs) ∧
      ∀ db, rs.foldlM apply {} = .ok db → db.Counts rs ∧ db.Unites rs ∧
        ∀ rs', rs.Perm rs' → ∃ db', rs'.foldlM apply {} = .ok db' ∧
          ∀ identifier,
            Option.Rel Entry.SameMerge (db.lookup? identifier) (db'.lookup? identifier) := by
  have htell : HashesTell rs := hashesTell_of_collisionFree hnul hfree
  have hagree : ∀ db, rs.foldlM apply {} = .ok db → AllAgree rs := fun db h =>
    allAgree_of_foldlM_apply [] hkind htell nofun (counts_empty _) unites_empty h
  have htaken : ∀ rs', rs.Perm rs' → AllAgree rs →
      ∃ db, rs'.foldlM apply {} = .ok db ∧ db.Counts rs' ∧ db.Unites rs' := by
    intro rs' hperm hall
    refine foldlM_apply_of_allAgree [] (fun r hr => hkind r (hperm.mem_iff.2 hr)) ?_
      (hall.perm hperm) (counts_empty _) unites_empty
    intro v w hv hw
    exact htell v w (hv.mono hperm.symm.subset) (hw.mono hperm.symm.subset)
  refine ⟨⟨fun ⟨db, h⟩ => hagree db h, fun h => ?_⟩, fun db h => ?_⟩
  · obtain ⟨db, hdb, -⟩ := htaken rs (.refl rs) h
    exact ⟨db, hdb⟩
  · obtain ⟨_, hdb, hc, hu⟩ := htaken rs (.refl rs) (hagree db h)
    obtain rfl := Except.ok.inj (hdb.symm.trans h)
    refine ⟨hc, hu, fun rs' hperm => ?_⟩
    obtain ⟨db', hdb', hc', hu'⟩ := htaken rs' hperm (hagree _ h)
    exact ⟨db', hdb', rel_lookup?_of_perm hperm hc hu hc' hu'⟩

/-! ### One identifier, defined and used -/

/-- A use of an identifier and its definition. -/
def sampleRecords : List Record :=
  [{ identifier := "Hi", kind := .reference, value := {}, location := ⟨"a.c", 1, 1⟩ },
    { identifier := "Hi", kind := .definition, value := { fallback := some "Hi" },
      location := ⟨"b.c", 1, 1⟩ }]

theorem at?_sampleRecords {r : Record} (hr : r ∈ sampleRecords) (key : Option String)
    {text : String} (h : r.value.at? key = some text) : key = none ∧ text = "Hi" := by
  rcases List.mem_cons.1 hr with rfl | hr
  · cases key <;> cases h
  · obtain rfl := List.mem_singleton.1 hr
    cases key with
    | none => exact ⟨rfl, (Option.some.inj h).symm⟩
    | some code => cases h

theorem eq_of_madeOf_sampleRecords {v : Value} (h : v.MadeOf sampleRecords) :
    v = {} ∨ v = { fallback := some "Hi" } := by
  have hat : ∀ key text, v.at? key = some text → key = none ∧ text = "Hi" := by
    intro key text ht
    obtain ⟨r, hr, hrt⟩ := h key text ht
    exact at?_sampleRecords hr key hrt
  have hlocale : ∀ code, v.at? (some code) = none := by
    intro code
    cases hc : v.at? (some code) with
    | none => rfl
    | some text => cases (hat _ _ hc).1
  cases hf : v.at? none with
  | none =>
    refine .inl (Value.ext_at? fun key => ?_)
    cases key with
    | none => exact hf
    | some code => exact hlocale code
  | some text =>
    obtain ⟨-, rfl⟩ := hat _ _ hf
    refine .inr (Value.ext_at? fun key => ?_)
    cases key with
    | none => exact hf
    | some code => exact hlocale code

theorem collisionFree_sampleRecords : CollisionFree (ContentMessage sampleRecords) := by
  have hne : sha256Hex (Value.message {}) ≠
      sha256Hex (Value.message { fallback := some "Hi" }) := by decide +kernel
  rintro _ _ ⟨v, hv, rfl⟩ ⟨w, hw, rfl⟩ h
  rcases eq_of_madeOf_sampleRecords hv with rfl | rfl <;>
    rcases eq_of_madeOf_sampleRecords hw with rfl | rfl
  · rfl
  · exact absurd h hne
  · exact absurd h.symm hne
  · rfl

theorem apply_order_independent_sample :
    ∃ db, sampleRecords.reverse.foldlM apply {} = .ok db := by
  have hkind : ∀ r ∈ sampleRecords, r.kind ≠ .autoInit := by decide
  have hnul : ∀ r ∈ sampleRecords, r.value.NulFree := by
    intro r hr
    refine ⟨fun text ht => ?_, fun e he => ?_⟩
    · obtain ⟨-, rfl⟩ := at?_sampleRecords hr none ht
      decide
    · have hkey := (at?_sampleRecords hr (some e.1) (SortedMap.get?_eq_some_iff.2 he)).1
      cases hkey
  obtain ⟨htaken, horders⟩ := apply_order_independent hkind hnul collisionFree_sampleRecords
  obtain ⟨db, hdb⟩ := htaken.2 fun r hr r' hr' _ key text text' h h' =>
    (at?_sampleRecords hr key h).2.trans (at?_sampleRecords hr' key h').2.symm
  obtain ⟨db', hdb', -⟩ := (horders db hdb).2.2 _ (List.reverse_perm _).symm
  exact ⟨db', hdb'⟩

end Database

end FlashStrings
