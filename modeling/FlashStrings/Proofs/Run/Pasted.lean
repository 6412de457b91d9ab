import FlashStrings.Proofs.Merge.Shortcut
import FlashStrings.Proofs.Query.Pasted
import FlashStrings.Proofs.Run.References

/-!
# Pasted members of a saved database

A run without errors saves entries and members that are all fit to be pasted: what a
query prints for them is scanned as one record with the same identifier and the same
value (`SavedBy.scan_memberInvocation`).

The records of a run can be written as invocations, whether they come from a scan or an
earlier database (`Project.sound_of_mem_scanRecords`) or from the settings
(`Project.sound_of_mem_configRecords`).
Merging keeps this (`Writable.union`), since an entry takes a wildcard only together
with the fallback that stands beside it.  An entry without a fallback is used at some
place, so that the rule about uses reports it (`Database.Sound`).
-/

namespace FlashStrings

/-! ## Values -/

theorem Value.isNormal_empty : Value.IsNormal {} := by
  intro text h
  cases h

theorem Value.isNormal_normalizeWildcard (v : Value) : v.normalizeWildcard.IsNormal := by
  intro text h
  rw [normalizeWildcard] at h ⊢
  cases hwild : v.locales.get? wildcardLocale with
  | none =>
    simp only [hwild] at h
    cases h
  | some wild =>
    cases hfallback : v.fallback with
    | none => simp [hwild, hfallback] at h
    | some fallback =>
      by_cases heq : fallback = wild
      · simp [hwild, hfallback, heq] at h
      · simp only [hwild, hfallback, heq, if_false, Option.some.injEq] at h ⊢
        exact ⟨fallback, rfl, fun he => heq (he.trans h.symm)⟩

/-- Two values in normal form that agree, put together key by key. -/
theorem Value.IsNormal.union {v w u : Value} (hv : v.IsNormal) (hw : w.IsNormal)
    (hu : ∀ key, u.at? key = (v.at? key).or (w.at? key))
    (hagree : ∀ key text text', v.at? key = some text → w.at? key = some text' → text = text') :
    u.IsNormal := by
  intro text h
  have hnone : u.fallback = v.fallback.or w.fallback := hu none
  have hwild : v.at? (some wildcardLocale) = some text ∨
      w.at? (some wildcardLocale) = some text := by
    have h : u.at? (some wildcardLocale) = some text := h
    rw [hu, Option.or_eq_some_iff] at h
    exact h.imp_right And.right
  rcases hwild with hwild | hwild
  · obtain ⟨fallback, hfallback, hne⟩ := hv text hwild
    exact ⟨fallback, by rw [hnone, hfallback, Option.some_or], hne⟩
  · obtain ⟨fallback, hfallback, hne⟩ := hw text hwild
    refine ⟨fallback, ?_, hne⟩
    cases hv' : v.fallback with
    | none => rw [hnone, hv', hfallback, Option.none_or]
    | some first =>
      rw [hnone, hv', Option.some_or, hagree none first fallback hv' hfallback]

/-- In normal form there is no wildcard without a fallback, so a fallback may be added. -/
theorem Value.IsNormal.withFallback {v : Value} (h : v.IsNormal) (hnone : v.fallback = none)
    (text : String) : IsNormal { v with fallback := some text } := by
  intro wild hwild
  obtain ⟨fallback, hfallback, -⟩ := h wild hwild
  rw [hnone] at hfallback
  cases hfallback

/-- Two values that agree, put together key by key. -/
theorem Writable.union {identifier other : String} {v w u : Value} (hv : Writable identifier v)
    (hw : Writable other w) (hu : ∀ key, u.at? key = (v.at? key).or (w.at? key))
    (hagree : ∀ key text text', v.at? key = some text → w.at? key = some text' → text = text') :
    Writable identifier u := by
  have hfrom : ∀ key text, u.at? key = some text →
      v.at? key = some text ∨ w.at? key = some text := by
    intro key text h
    rw [hu, Option.or_eq_some_iff] at h
    exact h.imp_right And.right
  refine ⟨hv.isIdentifier, ⟨fun key text h => ?_, fun code text h => ?_⟩,
    hv.isNormal.union hw.isNormal hu hagree⟩
  · exact (hfrom key text h).elim (hv.each.texts key text) (hw.each.texts key text)
  · exact (hfrom _ text h).elim (hv.each.codes code text) (hw.each.codes code text)

/-! ## Entries -/

namespace Entry

variable {e e' : Entry} {r : Record}

/-- The entry has a fallback, or the rule about uses has a place to point at. -/
def Supplied (e : Entry) : Prop :=
  e.isResolved = true ∨ e.isReferenced = true ∧ e.references ≠ []

/-- The entry can be written as an invocation, perhaps without the fallback. -/
structure Sound (e : Entry) : Prop where
  writable : Writable e.identifier e.value
  supplied : e.Supplied

theorem isResolved_iff (e : Entry) : e.isResolved = true ↔ (e.value.at? none).isSome = true := by
  rw [isResolved, at?_value, Option.isSome_map]
  rfl

theorem sound_create (hr : Writable r.identifier r.value) (htext : r.GivesText) :
    (create r.identifier r.candidate).Sound := by
  have hvalue : (create r.identifier r.candidate).value = r.value := value_create ..
  refine ⟨by rwa [identifier_create, hvalue], ?_⟩
  cases hk : r.kind with
  | reference =>
    refine .inr ?_
    rw [create, account_eq]
    simp [isReferenced, Record.candidate, hk]
  | definition =>
    refine .inl ?_
    rw [isResolved_iff, hvalue]
    exact htext (by rw [hk]; rfl)
  | autoInit =>
    refine .inl ?_
    rw [isResolved_iff, hvalue]
    exact htext (by rw [hk]; rfl)

/-- Accounts add places only. -/
theorem Supplied.account (h : e.Supplied) (hfallback : e.isResolved = true → e'.isResolved = true)
    (hsame : SameCounts e e') (c : Candidate) : ((e'.promote c).account c).Supplied := by
  obtain ⟨-, husage, hreferences, -⟩ := hsame
  rw [account_eq, promote_eq]
  refine h.imp hfallback fun ⟨hused, hne⟩ => ⟨?_, by simp [hreferences, hne]⟩
  simp only [isReferenced, gt_iff_lt, decide_eq_true_eq] at hused ⊢
  omega

theorem Sound.merge (h : e.Sound) (hr : Writable r.identifier r.value)
    (hm : e.merge r.candidate = .ok e') : e'.Sound := by
  rcases merge_eq_ok hm with ⟨-, rfl⟩ | ⟨hnil, rfl⟩
  · refine ⟨?_, h.supplied.account id ⟨rfl, rfl, rfl, rfl⟩ _⟩
    rw [identifier_account, identifier_promote, value_account, value_promote]
    exact h.writable
  · refine ⟨?_, h.supplied.account (fun hresolved => ?_) (e.sameCounts_adopt r.candidate) _⟩
    · rw [identifier_account, identifier_promote, value_account, value_promote]
      show Writable (e.adopt r.candidate).identifier (e.adopt r.candidate).value
      rw [identifier_adopt]
      exact h.writable.union hr (e.at?_value_adopt r.candidate)
        (conflicts_eq_nil_iff.1 hnil)
    · rw [isResolved_iff] at hresolved ⊢
      rw [value_refreshHash, at?_value_adopt]
      simp [hresolved]

/-- A member takes a candidate without a change of its value. -/
theorem Fit.mergeMember (h : e.Fit) {c : Candidate} (hm : e.mergeMember c = .ok e') : e'.Fit := by
  obtain ⟨-, rfl⟩ := mergeMember_eq_ok hm
  refine ⟨?_, ?_⟩
  · rw [identifier_account, value_account]
    exact h.writable
  · rw [isResolved_iff, value_account, ← isResolved_iff]
    exact h.isResolved

theorem fit_create (hr : Writable r.identifier r.value) (htext : r.GivesText)
    (hkind : r.kind = .autoInit) : (create r.identifier r.candidate).Fit := by
  refine ⟨(sound_create hr htext).writable, ?_⟩
  rw [isResolved_iff, value_create]
  exact htext (by rw [hkind]; rfl)

/-- A display text makes an entry without a fallback fit. -/
theorem Sound.filled (h : e.Sound) : e.filled.Sound := by
  rcases e.filled_cases with hsame | ⟨location, hnone, -, hfilled⟩
  · rwa [hsame]
  · have hnone : e.value.fallback = none := by rw [value, hnone]; rfl
    rw [hfilled]
    refine ⟨⟨h.writable.isIdentifier, ⟨fun key text ht => ?_, h.writable.each.codes⟩,
      h.writable.isNormal.withFallback hnone _⟩, .inl rfl⟩
    cases key with
    | none =>
      obtain rfl := Option.some.inj ht
      exact pastable_displayText h.writable.isIdentifier
    | some code => exact h.writable.each.texts (some code) text ht

/-- An entry that the rule about uses does not report has a fallback. -/
theorem Sound.fit (h : e.Sound) (hnone : e.unresolved? = none) : e.Fit := by
  refine ⟨h.writable, h.supplied.elim id fun ⟨hused, hne⟩ => ?_⟩
  cases hresolved : e.isResolved with
  | true => rfl
  | false =>
    obtain ⟨location, places, hplaces⟩ := List.exists_cons_of_ne_nil hne
    simp [unresolved?, hused, hresolved, hplaces] at hnone

end Entry

/-! ## Databases -/

/-- The record can be written as an invocation, and gives a text if its kind needs one. -/
structure Record.Sound (r : Record) : Prop where
  writable : Writable r.identifier r.value
  givesText : r.GivesText

/-- The entries are sound, and the members are fit to be pasted. -/
structure Database.Sound (db : Database) : Prop where
  entries : ∀ e ∈ db.entries, e.Sound
  members : ∀ e ∈ db.autoInit, e.Fit

namespace Database

variable {db db' : Database} {r : Record}

theorem Sound.apply (h : db.Sound) (hr : r.Sound) (ha : db.apply r = .ok db') : db'.Sound := by
  by_cases hk : r.kind = .autoInit
  · rw [Database.apply, hk] at ha
    obtain ⟨members, hm, rfl⟩ := map_eq_ok ha
    refine ⟨h.entries, forall_of_mergeOrAppend ?_ (fun e e' he => he.mergeMember) hm h.members⟩
    exact Entry.fit_create hr.writable hr.givesText hk
  · rw [apply_eq_upsert hk, upsert] at ha
    obtain ⟨entries, hm, rfl⟩ := map_eq_ok ha
    refine ⟨forall_of_mergeOrAppend ?_ (fun e e' he => he.merge hr.writable) hm h.entries,
      h.members⟩
    exact Entry.sound_create hr.writable hr.givesText

theorem Sound.applyAll (h : db.Sound) {rs : List Record} (hrs : ∀ r ∈ rs, r.Sound) :
    (db.applyAll rs).1.Sound :=
  applyAll_induction h fun r hr _ _ hdb ha => hdb.apply (hrs r hr) ha

theorem Sound.withFiles (h : db.Sound) (files : TextMap FileRecords) :
    Sound { db with files } := ⟨h.entries, h.members⟩

end Database

/-! ## Records -/

namespace Argument

/-- Literals among collected pieces are closed. -/
theorem isQuotable_of_collect {depth width width' : Nat} {found ps : List Piece} {s : List Char}
    (h : collect depth found width s = .ok (ps, width'))
    (hfound : ∀ body, .literal '"' body ∈ found → isQuotable body = true) {body : List Char}
    (hmem : .literal '"' body ∈ ps) : isQuotable body = true := by
  have char {c : Char} {found : List Piece}
      (hfound : ∀ body, .literal '"' body ∈ found → isQuotable body = true) :
      ∀ body, .literal '"' body ∈ Piece.char c :: found → isQuotable body = true :=
    fun body hbody => hfound body ((List.mem_cons.1 hbody).resolve_left nofun)
  fun_induction collect depth found width s with
  | case1 => cases h
  | case2 depth found width s ih => exact ih h (char hfound)
  | case3 found width s =>
    obtain ⟨rfl, -⟩ := Prod.mk.inj (Except.ok.inj h)
    exact hfound body (List.mem_reverse.1 hmem)
  | case4 found width s depth _ ih => exact ih h (char hfound)
  | case5 depth found width c s _ _ _ content rest hcontent _ ih =>
    refine ih h fun body hbody => ?_
    rcases List.mem_cons.1 hbody with heq | hbody
    · obtain ⟨rfl, rfl⟩ := Piece.literal.inj heq
      exact isQuotable_of_quoted? hcontent
    · exact hfound body hbody
  | case6 => cases h
  | case7 depth found width c s _ _ _ n hn _ ih => exact ih h (char hfound)
  | case8 depth found width c s _ _ _ hn ih => exact ih h (char hfound)

end Argument

/-- The value of a record of a scan is in normal form. -/
theorem Scan.Gives.isNormal {settings : ScanSettings} {r : Record}
    (h : Scan.Gives settings r) : r.value.IsNormal := by
  obtain ⟨s, ps, width, -, hread⟩ := h
  obtain ⟨parts, -, -, -, hvalue⟩ := Argument.readAll_eq_ok (readArguments_eq_ok hread).1
  rcases Argument.readValue_eq_ok hvalue with ⟨-, hempty⟩ | ⟨v, -, hnormal⟩
  · have hempty : r.value = {} := hempty
    rw [hempty]
    exact Value.isNormal_empty
  · have hnormal : v.normalizeWildcard = r.value := hnormal
    rw [← hnormal]
    exact v.isNormal_normalizeWildcard

/-- A record of a scan can be written as an invocation. -/
theorem Scan.Gives.sound {settings : ScanSettings} {r : Record}
    (hdefines : settings.defines.Quotable) (h : Scan.Gives settings r) : r.Sound := by
  have hnormal := h.isNormal
  refine ⟨?_, h.givesText⟩
  obtain ⟨s, ps, width, hextract, hread⟩ := h
  have hall := (readArguments_eq_ok hread).1
  obtain ⟨parts, -, hid, hname, -⟩ := Argument.readAll_eq_ok hall
  have hname : r.identifier = _ := hname
  refine ⟨?_, Argument.each_of_readAll (fun rest hrest content hoperand => ?_) hall, hnormal⟩
  · rw [hname]
    exact hid
  · exact pastable_of_operand hdefines (fun body hbody => Argument.isQuotable_of_collect hextract
      (fun body hbody => by cases hbody) (hrest hbody)) hoperand

namespace Project

variable {p : Project} {t : FileTree} {earlier : Database} {hashed : Bytes → Prop} {r : Record}

/-- The texts of the settings can be written as an invocation. -/
theorem sound_of_mem_configRecords (haccepts : p.config.AcceptsTexts)
    (h : r ∈ p.configRecords) : r.Sound := by
  refine ⟨?_, givesText_of_mem_configRecords haccepts h⟩
  obtain ⟨⟨identifier, texts⟩, hmem, rfl⟩ := List.mem_map.1 h
  have hnone := haccepts identifier texts hmem
  refine ⟨ConfigText.isIdentifier_of_error? hnone, Value.Each.normalizeWildcard ⟨?_, ?_⟩,
    Value.isNormal_normalizeWildcard _⟩
  · intro key text ht
    have hescaped : ∃ plain, escapeText plain = text := by
      cases key with
      | none => exact (Option.map_eq_some_iff.1 ht).imp fun _ => And.right
      | some code =>
        have ht : (texts.locales.map escapeText).get? code = some text := ht
        rw [SortedMap.get?_map] at ht
        exact (Option.map_eq_some_iff.1 ht).imp fun _ => And.right
    obtain ⟨plain, rfl⟩ := hescaped
    exact pastable_escapeText plain
  · intro code text ht
    have ht : (texts.locales.map escapeText).get? code = some text := ht
    rw [SortedMap.get?_map] at ht
    obtain ⟨plain, hplain, -⟩ := Option.map_eq_some_iff.1 ht
    exact ConfigText.isLocaleCode_of_error? hnone hplain

/-- A record of a source can be written as an invocation, also if it was found by an
earlier scan. -/
theorem sound_of_mem_scanRecords (hdefines : p.defines.Quotable)
    (htrust : p.CanTrust hashed (p.known earlier))
    (h : r ∈ scanRecords (p.scans t earlier)) : r.Sound := by
  obtain ⟨s, hs, hr⟩ := mem_scanRecords_iff.1 h
  obtain ⟨file, -, hfile⟩ := List.mem_map.1 hs
  rcases scanFile_eq_ok hfile with hnew | hknown
  · obtain ⟨-, content, -, hmem⟩ := exists_of_mem_records hnew hr
    exact (gives_of_mem_recordsOf_scan hmem).sound hdefines
  · obtain ⟨content, -, -, -, hrecords⟩ := htrust _ _ hknown
    rw [hrecords] at hr
    exact (gives_of_mem_recordsOf_scan hr).sound hdefines

/-- What a run gathers from such records is sound. -/
theorem sound_gather {scans : List (Except Issue FileScan)}
    (hscans : ∀ r ∈ scanRecords scans, r.Sound) (hconfig : ∀ r ∈ p.configRecords, r.Sound) :
    (p.gather scans).1.Sound := by
  obtain ⟨files, hdb, -⟩ := p.gather_eq scans
  have hempty : Database.Sound { fingerprint := p.fingerprint } := ⟨nofun, nofun⟩
  rw [hdb]
  exact (hempty.applyAll (List.forall_mem_append.2 ⟨hscans, hconfig⟩)).withFiles files

/-! ## The outcome -/

/-- The entries and the members of a run without errors are fit to be pasted. -/
theorem fit_of_mem_database (haccepts : p.config.AcceptsTexts) (hdefines : p.defines.Quotable)
    (htrust : p.CanTrust hashed (p.known earlier))
    (herror : Issue.anyError (p.runAfter t earlier).issues = false) {e : Entry}
    (he : e ∈ (p.runAfter t earlier).database.entries ++
      (p.runAfter t earlier).database.autoInit) : e.Fit := by
  have hsound : (p.gather (p.scans t earlier)).1.Sound :=
    sound_gather (fun _ => sound_of_mem_scanRecords hdefines htrust)
      fun _ => sound_of_mem_configRecords haccepts
  rcases List.mem_append.1 he with hentry | hmember
  · obtain ⟨e₀, he₀, rfl⟩ := entry_of_mem_database hentry
    have hfinish : (p.finish e₀).Sound := by
      rw [finish]
      split
      · exact (hsound.entries e₀ he₀).filled
      · exact hsound.entries e₀ he₀
    refine hfinish.fit (Option.eq_none_iff_forall_ne_some.2 fun i hi => ?_)
    have hmem : i ∈ (p.runAfter t earlier).issues :=
      (perm_issues p t earlier).mem_iff.2 (List.mem_append_left _
        (List.mem_append_right _ (List.mem_filterMap.2 ⟨_, hentry, hi⟩)))
    exact Issue.anyError_eq_false_iff.1 herror i hmem (severity_of_unresolved? hi)
  · rw [autoInit_runAfter] at hmember
    exact hsound.members e hmember

end Project

/-- What a query prints for an entry or a member of a saved database is scanned as one
record with its identifier and its value. -/
theorem SavedBy.scan_memberInvocation {hashed : Bytes → Prop} {p : Project} {content : Bytes}
    (hsaved : SavedBy hashed p content) (hfree : CollisionFree hashed)
    (haccepts : p.config.AcceptsTexts) (hdefines : p.defines.Quotable) {t : FileTree}
    {path : Path} (hread : t.read? path = some content) {db : Database}
    (hload : Database.load t path = .ok db) {e : Entry} (he : e ∈ db.entries ++ db.autoInit)
    (file : String) :
    scan ⟨file, ∅⟩ (Report.memberInvocation e) =
      [.record { identifier := e.identifier, kind := .autoInit, value := e.value
                 location := ⟨file, 1, 1⟩ }] := by
  have hrun : ∃ t₀, p.Saves hashed t₀ content ∧ p.HasSavedDatabase hashed t₀ := by
    cases hsaved with
    | first hnone hsaves =>
      exact ⟨_, hsaves, fun _ hbefore => absurd (hnone.symm.trans hbefore) nofun⟩
    | next hq hbefore hsaves =>
      exact ⟨_, hsaves, fun _ hbefore' =>
        ⟨_, Option.some.inj (hbefore.symm.trans hbefore') ▸ hq⟩⟩
  obtain ⟨t₀, hsaves, hhistory⟩ := hrun
  obtain ⟨o, t', summary, hrun, hwrite, hcontent⟩ := hsaves.writes
  obtain ⟨herror, hwritten⟩ := Project.read?_write hwrite
  obtain rfl := Option.some.inj (hwritten.symm.trans hcontent)
  obtain rfl := Database.load_of_read?_eq_some hread hload
  rw [Project.run] at hrun
  obtain ⟨earlier, hearlier, rfl⟩ := map_eq_ok hrun
  have htrust := hhistory.canTrust hfree hsaves.regular hearlier
  exact (Project.fit_of_mem_database haccepts hdefines htrust herror he).scan_pasted file

namespace Project

/-! ### An entry with a split literal and a locale -/

/-- A source with a use of `Hi`.  The text is split so that `B` does not go on with the
escape in front of it, and has quotes in two locales. -/
def splitSource : Bytes :=
  Utf8.encode "SPGM(Hi, \"a\\x41\" \"B\\n\", de;at: \"\\\"Tag\\\"\")\n"

/-- The tree with this source. -/
def splitTree : FileTree := sampleTree.put ["p", "src", "a.c"] (.file splitSource)

/-- The texts of `Hi`. -/
def splitValue : Value where
  fallback := some "a\\x41\" \"B\\n"
  locales := .ofList [("at", "\\\"Tag\\\""), ("de", "\\\"Tag\\\"")]

/-- The use of `Hi` in the source. -/
def splitUse : Record where
  identifier := "Hi"
  kind := .reference
  value := splitValue
  location := ⟨"src/a.c", 1, 1⟩

/-- The entry of the saved database. -/
def splitEntry : Entry := .create "Hi" splitUse.candidate

theorem scan_memberInvocation_sample :
    Report.memberInvocation splitEntry =
        "AUTO_STRING_DEF(Hi, \"a\\x41\" \"B\\n\", at: \"\\\"Tag\\\"\", de: \"\\\"Tag\\\"\")" ∧
      scan ⟨"b.c", ∅⟩ (Report.memberInvocation splitEntry) =
        [.record ⟨"Hi", .autoInit, splitValue, ⟨"b.c", 1, 1⟩⟩] := by
  have hsaves : forcedSample.Saves (sampleHashed splitSource) splitTree
      (Utf8.encode (forcedSample.runAfter splitTree {}).database.toText) :=
    saves_of_isOk ⟨[], rfl⟩
      (sampleHashed_of_hashes rfl rfl (by decide +kernel) (by decide +kernel))
      (by decide +kernel) (by decide +kernel)
  obtain ⟨_, t', _, -, -, hread⟩ := hsaves.writes
  have hfits : (forcedSample.runAfter splitTree {}).database.fits = true := by decide +kernel
  have hload := Database.load_of_read? hread
  rw [if_pos hfits] at hload
  have hentry : splitEntry ∈ (forcedSample.runAfter splitTree {}).database.entries := by
    decide +kernel
  refine ⟨by rfl, ?_⟩
  exact SavedBy.scan_memberInvocation (.first (by decide +kernel) hsaves)
    (collisionFree_sampleHashed (by decide +kernel)) (Config.acceptsTexts_of_check rfl)
    (fun _ _ hname => nomatch hname) hread hload (List.mem_append_left _ hentry) "b.c"

end Project

end FlashStrings
