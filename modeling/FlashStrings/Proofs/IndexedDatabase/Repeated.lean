import FlashStrings.Proofs.IndexedDatabase.Consistent
import FlashStrings.Proofs.Invocation.Said
import FlashStrings.Proofs.Merge.Held

/-!
# Repeated parts of an invocation

An invocation that was taken may be followed by one that says a part of it
(`Said.PartOf`).  For a regular entry the part is nothing new, so it is counted and no
text changes.  The exception is a part that loses the fallback: its wildcard becomes a
fallback that clashes.  A member of the list for automatic initialisation has to be
repeated with its whole content (`IndexedDatabase.Reachable.apply_part`).

The part is compared with the entry and not with the first record.  What carries over is
that the entry holds the texts of a record that it took (`Entry.holds_of_merge`), for
which hashes have to tell the texts.
-/

namespace FlashStrings

/-- How a record of a kind is merged into its entry. -/
def RecordKind.merge (kind : RecordKind) : Entry → Candidate → Except (List Conflict) Entry :=
  if kind = .autoInit then Entry.mergeMember else Entry.merge

/-! ## One entry -/

namespace Entry

variable {e e' : Entry} {r : Record}

/-- The texts and their places stay, and a reference is one more use. -/
structure UsedAgain (e : Entry) (r : Record) (e' : Entry) : Prop where
  fallback : e'.fallback = e.fallback
  locales : e'.locales = e.locales
  usageCount : e'.usageCount = e.usageCount + if r.kind = .reference then 1 else 0

theorem usedAgain_account (e : Entry) (r : Record) : e.UsedAgain r (e.account r.candidate) := by
  rw [account_eq]
  exact ⟨rfl, rfl, by simp [Record.candidate]⟩

theorem usedAgain_promote_account (e : Entry) (r : Record) :
    e.UsedAgain r ((e.promote r.candidate).account r.candidate) := by
  rw [account_eq, promote_eq]
  exact ⟨rfl, rfl, by simp [Record.candidate]⟩

/-- An entry holds the texts of a record that it takes, and a member has no others. -/
theorem holds_of_merge (hhash : e.contentHash = e.value.contentHash)
    (htell : r.value.contentHash = e.value.contentHash → r.value = e.value)
    (hm : r.kind.merge e r.candidate = .ok e') :
    r.value.Below e'.value ∧ (r.kind = .autoInit → e'.value = r.value) := by
  by_cases hk : r.kind = .autoInit
  · rw [RecordKind.merge, if_pos hk] at hm
    obtain ⟨hsame, rfl⟩ := mergeMember_eq_ok hm
    have heq : r.value = e.value := htell (hsame.trans hhash)
    rw [value_account, ← heq]
    exact ⟨.refl r.value, fun _ => rfl⟩
  · rw [RecordKind.merge, if_neg hk] at hm
    refine ⟨?_, fun hk' => absurd hk' hk⟩
    have hjoin := joins_of_merge hm
    refine hjoin.taken.elim id fun hsame => ?_
    have heq : r.value = e.value := htell (Eq.trans hsame hhash)
    exact heq ▸ hjoin.below

/-- A record without news is counted. -/
theorem merge_of_below (hhash : e.contentHash = e.value.contentHash)
    (h : r.value.Below e.value) (hmember : r.kind = .autoInit → r.value = e.value) :
    ∃ e', r.kind.merge e r.candidate = .ok e' ∧ e.UsedAgain r e' := by
  by_cases hk : r.kind = .autoInit
  · have hsame : r.candidate.value.contentHash = e.contentHash := by
      rw [hhash, ← hmember hk]
      rfl
    rw [RecordKind.merge, if_pos hk, mergeMember, if_pos (beq_iff_eq.2 hsame)]
    exact ⟨_, rfl, e.usedAgain_account r⟩
  · have hkeys : e.mergeByKeys r.candidate = .ok ((e.promote r.candidate).account r.candidate) :=
      mergeByKeys_of_held hhash h
    rw [RecordKind.merge, if_neg hk, merge]
    split
    · exact ⟨_, rfl, e.usedAgain_promote_account r⟩
    · exact ⟨_, hkeys, e.usedAgain_promote_account r⟩

/-- A record with another fallback is refused, and by a member one with another
content. -/
theorem merge_eq_error_of_ne (hhash : e.contentHash = e.value.contentHash)
    (htell : r.value.contentHash = e.value.contentHash → r.value = e.value)
    (hne : r.value ≠ e.value)
    (hregular : r.kind ≠ .autoInit → ∃ text other, e.value.at? none = some text ∧
      r.value.at? none = some other ∧ text ≠ other) :
    ∃ new, r.kind.merge e r.candidate = .error new := by
  by_cases hk : r.kind = .autoInit
  · rw [RecordKind.merge, if_pos hk, mergeMember, if_neg]
    · exact ⟨_, rfl⟩
    · rw [beq_iff_eq, hhash]
      exact fun hsame => hne (htell hsame)
  · rw [RecordKind.merge, if_neg hk, merge_eq_mergeByKeys (c := r.candidate) hhash htell,
      mergeByKeys]
    obtain ⟨text, other, htext, hother, hdiffer⟩ := hregular hk
    split
    · next hnil => exact absurd (conflicts_eq_nil_iff.1 hnil none text other htext hother) hdiffer
    · exact ⟨_, rfl⟩

end Entry

/-! ## Databases -/

namespace Database

variable {db db' : Database} {r : Record}

/-- A record is merged into the entries of its kind. -/
theorem map_entriesFor_apply (db : Database) (r : Record) :
    (db.apply r).map (·.entriesFor r.kind) =
      mergeOrAppend r.kind.merge r.identifier r.candidate (db.entriesFor r.kind) := by
  cases hk : r.kind with
  | autoInit =>
    rw [apply, hk]
    show ((mergeOrAppend Entry.mergeMember r.identifier r.candidate db.autoInit).map _).map _ =
      mergeOrAppend Entry.mergeMember r.identifier r.candidate db.autoInit
    cases mergeOrAppend Entry.mergeMember r.identifier r.candidate db.autoInit <;> rfl
  | definition | reference =>
    rw [apply, hk]
    show ((mergeOrAppend Entry.merge r.identifier r.candidate db.entries).map _).map _ =
      mergeOrAppend Entry.merge r.identifier r.candidate db.entries
    cases mergeOrAppend Entry.merge r.identifier r.candidate db.entries <;> rfl

theorem identifier_of_kind_merge {e e' : Entry} (h : r.kind.merge e r.candidate = .ok e') :
    e'.identifier = e.identifier := by
  unfold RecordKind.merge at h
  split at h
  · exact Entry.identifier_of_mergeMember h
  · exact Entry.identifier_of_merge h

/-- The entry of a record that is taken was made by it, or took it. -/
theorem exists_entryFor?_of_apply (ha : db.apply r = .ok db') :
    ∃ e', db'.entryFor? r = some e' ∧ match db.entryFor? r with
      | none => e' = .create r.identifier r.candidate
      | some e => r.kind.merge e r.candidate = .ok e' := by
  have hm := db.map_entriesFor_apply r
  rw [ha] at hm
  obtain ⟨e', hself, hlookup⟩ := entryOf?_of_mergeOrAppend (Entry.identifier_create ..)
    (fun _ _ => identifier_of_kind_merge) hm.symm
  exact ⟨e', (hlookup r.identifier).trans (if_pos rfl), hself⟩

/-- The entry of a record decides whether it is taken. -/
theorem apply_of_merge_eq_ok {e e' : Entry} (he : db.entryFor? r = some e)
    (hm : r.kind.merge e r.candidate = .ok e') :
    ∃ db', db.apply r = .ok db' ∧ db'.entryFor? r = some e' := by
  obtain ⟨i, -, -, hlist⟩ := mergeOrAppend_of_eq_some r.kind.merge r.candidate he
  rw [← map_entriesFor_apply, hm] at hlist
  obtain ⟨db', ha, -⟩ := map_eq_ok hlist
  obtain ⟨e'', he'', hmade⟩ := exists_entryFor?_of_apply ha
  rw [he] at hmade
  obtain rfl := Except.ok.inj (hm.symm.trans hmade)
  exact ⟨db', ha, he''⟩

theorem apply_of_merge_eq_error {e : Entry} {new : List Conflict} (he : db.entryFor? r = some e)
    (hm : r.kind.merge e r.candidate = .error new) : db.apply r = .error new := by
  obtain ⟨i, -, -, hlist⟩ := mergeOrAppend_of_eq_some r.kind.merge r.candidate he
  rw [← map_entriesFor_apply, hm] at hlist
  exact map_eq_error hlist

/-- Every entry of a consistent database has the hash of its texts. -/
theorem Consistent.contentHash_entryFor? (h : db.Consistent) {e : Entry}
    (he : db.entryFor? r = some e) : e.contentHash = e.value.contentHash := by
  have hmem := mem_of_entryOf? he
  unfold entriesFor at hmem
  split at hmem
  · exact (h.members e hmem).contentHash
  · exact (h.entries e hmem).contentHash

/-- The entry of a record that was taken holds its texts, and a member has no others. -/
theorem Consistent.holds_of_apply (h : db.Consistent) (ha : db.apply r = .ok db')
    (htell : ∀ e, db.entryFor? r = some e →
      r.value.contentHash = e.value.contentHash → r.value = e.value) :
    ∃ e', db'.entryFor? r = some e' ∧ r.value.Below e'.value ∧
      (r.kind = .autoInit → e'.value = r.value) := by
  obtain ⟨e', he', hmade⟩ := exists_entryFor?_of_apply ha
  refine ⟨e', he', ?_⟩
  cases he : db.entryFor? r with
  | none =>
    rw [he] at hmade
    have hvalue : e'.value = r.value := hmade ▸ Entry.value_create ..
    exact ⟨hvalue ▸ .refl r.value, fun _ => hvalue⟩
  | some e =>
    rw [he] at hmade
    exact Entry.holds_of_merge (h.contentHash_entryFor? he) (htell e he) hmade

end Database

/-- What keeps a part from being taken: a member is repeated as a whole or not at all,
and elsewhere the part loses the fallback. -/
def Record.Misses (again first : Record) (part whole : Said) : Prop :=
  if again.kind = .autoInit then again.value ≠ first.value else part.LosesFallback whole

/-- Behind an invocation that was taken, every part of what it says is accepted.  A record
of the part is refused just when it misses the fallback or the whole content.  Otherwise
it changes no text of the entry, and a reference is counted. -/
theorem IndexedDatabase.Reachable.apply_part {allowed : Location → Prop}
    {db db₁ : IndexedDatabase} (h : Reachable allowed db) {hashed : Bytes → Prop}
    (hfree : CollisionFree hashed) {defines : Defines} (hdefines : defines.Free '\x00')
    {r : Record} {source : String} (hsource : '\x00' ∉ source.toList)
    (hread : parseArguments defines source = .ok ⟨r.identifier, r.value⟩)
    (ha : db.apply r = some (.ok db₁)) (hmessage : hashed r.value.message)
    (hentries : ∀ e, db.database.entryFor? r = some e ∨ db₁.database.entryFor? r = some e →
      e.value.NulFree ∧ hashed e.value.message) :
    (∃ whole, Says defines source r.identifier whole) ∧
      ∀ whole part source', Says defines source r.identifier whole → part.PartOf whole →
        Says defines source' r.identifier part → '\x00' ∉ source'.toList →
        ∃ value, parseArguments defines source' = .ok ⟨r.identifier, value⟩ ∧
          (hashed value.message → ∀ again : Record, again.Shares r → again.value = value →
            (again.Misses r part whole → ∃ new, db₁.apply again = some (.error new)) ∧
            (¬again.Misses r part whole → ∃ e₁ db₂ e₂, db₁.database.entryFor? r = some e₁ ∧
              db₁.apply again = some (.ok db₂) ∧ db₂.database.entryFor? r = some e₂ ∧
              e₁.UsedAgain again e₂)) := by
  refine ⟨exists_said hread, fun whole part source' hwhole hpart hsays hsource' => ?_⟩
  rw [h.apply_eq] at ha
  obtain ⟨d, hd, rfl⟩ := map_eq_ok (Option.some.inj ha)
  have hnul : r.value.NulFree := nulFree_of_parseArguments hdefines hsource hread
  have hconsistent := h.consistent_database
  obtain ⟨e₁, he₁, hholds, hmember⟩ := hconsistent.holds_of_apply hd fun e he =>
    Value.eq_of_contentHash_eq hfree hnul (hentries e (.inl he)).1 hmessage
      (hentries e (.inl he)).2
  have hhash := (hconsistent.apply hd).contentHash_entryFor? he₁
  obtain ⟨value, hvalue, hbelow, hlost⟩ := hwhole.below_of_part hread hpart hsays
  refine ⟨value, hvalue, fun hmessage' again hshares hagain => ?_⟩
  subst hagain
  have htell : again.value.contentHash = e₁.value.contentHash → again.value = e₁.value :=
    Value.eq_of_contentHash_eq hfree (nulFree_of_parseArguments hdefines hsource' hvalue)
      (hentries e₁ (.inr he₁)).1 hmessage' (hentries e₁ (.inr he₁)).2
  have hentry : d.entryFor? again = some e₁ := (Database.entryFor?_of_shares hshares d).trans he₁
  rw [apply_ofDatabase]
  constructor
  · intro hmisses
    -- the part gives another fallback than the entry holds, or another content
    have hother : ∃ new, again.kind.merge e₁ again.candidate = .error new := by
      by_cases hk : again.kind = .autoInit
      · rw [Record.Misses, if_pos hk, ← hmember (hshares.2.1 hk)] at hmisses
        exact Entry.merge_eq_error_of_ne hhash htell hmisses (absurd hk)
      · rw [Record.Misses, if_neg hk] at hmisses
        obtain ⟨text, other, htext, hother, hne⟩ := hlost hmisses
        have htext := hholds none text htext
        refine Entry.merge_eq_error_of_ne hhash htell (fun heq => hne ?_) fun _ =>
          ⟨text, other, htext, hother, hne⟩
        exact Option.some.inj (htext.symm.trans (heq ▸ hother))
    obtain ⟨new, hnew⟩ := hother
    exact ⟨new, by rw [Database.apply_of_merge_eq_error hentry hnew]; rfl⟩
  · intro hkeeps
    have hheld : again.value.Below e₁.value ∧
        (again.kind = .autoInit → again.value = e₁.value) := by
      by_cases hk : again.kind = .autoInit
      · rw [Record.Misses, if_pos hk, Decidable.not_not, ← hmember (hshares.2.1 hk)] at hkeeps
        exact ⟨hkeeps ▸ .refl again.value, fun _ => hkeeps⟩
      · rw [Record.Misses, if_neg hk] at hkeeps
        exact ⟨(hbelow hkeeps).trans hholds, fun hk' => absurd hk' hk⟩
    obtain ⟨e₂, hmerge, hused⟩ := Entry.merge_of_below hhash hheld.1 hheld.2
    obtain ⟨d', ha', he₂⟩ := Database.apply_of_merge_eq_ok hentry hmerge
    refine ⟨e₁, ofDatabase d', e₂, he₁, by rw [ha']; rfl, ?_, hused⟩
    exact (Database.entryFor?_of_shares hshares d').symm.trans he₂

namespace IndexedDatabase

/-! ### A wildcard beside a fallback -/

/-- A fallback and another text for the wildcard. -/
def wildTexts : Value := { fallback := some "x", locales := .ofList [("*", "y")] }

/-- A use that gives them. -/
def firstUse : Record := ⟨"A", .reference, wildTexts, ⟨"a.cpp", 1, 1⟩⟩

/-- A use that gives one text, as fallback. -/
def laterUse (text : String) : Record :=
  ⟨"A", .reference, { fallback := some text }, ⟨"b.cpp", 1, 1⟩⟩

/-- The database of the first use. -/
def used : IndexedDatabase := ofDatabase { entries := [.create "A" firstUse.candidate] }

theorem clauses_wildcard : Argument.Clauses ∅ []
    [[.char '*', .char ':', .char ' ', .literal '"' ['y']]] [("*", "y")] := by
  have hcodes : Argument.localeCodes (Argument.text [.char '*']) = .ok ["*"] := by rfl
  have hoperand : Argument.operand ∅ [.char ' ', .literal '"' ['y']] = .text "y" := by
    decide +kernel
  exact .labelled rfl hcodes hoperand .nil

theorem says_firstUse :
    Says ∅ "A, \"x\", *: \"y\"" "A" { fallback := some "x", pairs := [("*", "y")] } := by
  have hread : Argument.read "A, \"x\", *: \"y\"".toList =
      ([.char 'A', .char ',', .char ' ', .literal '"' ['x'], .char ',', .char ' ', .char '*',
        .char ':', .char ' ', .literal '"' ['y']], []) := by decide +kernel
  have hoperand : Argument.operand ∅ [.literal '"' ['x']] = .text "x" := by decide +kernel
  exact ⟨hread, rfl, by decide, by decide, .fallback rfl hoperand clauses_wildcard⟩

theorem says_laterUse : Says ∅ "A, \"x\"" "A" { fallback := some "x" } := by
  have hread : Argument.read "A, \"x\"".toList =
      ([.char 'A', .char ',', .char ' ', .literal '"' ['x']], []) := by decide +kernel
  have hoperand : Argument.operand ∅ [.literal '"' ['x']] = .text "x" := by decide +kernel
  exact ⟨hread, rfl, by decide, by decide, .fallback rfl hoperand .nil⟩

theorem says_wildcard : Says ∅ "A, *: \"y\"" "A" { pairs := [("*", "y")] } := by
  have hread : Argument.read "A, *: \"y\"".toList =
      ([.char 'A', .char ',', .char ' ', .char '*', .char ':', .char ' ', .literal '"' ['y']],
        []) := by decide +kernel
  have hfirst : ∀ arg ∈ [[Piece.char '*', .char ':', .char ' ', .literal '"' ['y']]].head?,
      Argument.label? 0 arg ≠ none := by
    rintro _ ⟨⟩
    exact nofun
  exact ⟨hread, rfl, by decide, by decide, .clauses hfirst clauses_wildcard⟩

/-- The fallback alone is said again, and the use is counted. -/
theorem apply_part_sample : ({} : IndexedDatabase).apply firstUse = some (.ok used) ∧
    Says ∅ "A, \"x\", *: \"y\"" "A" { fallback := some "x", pairs := [("*", "y")] } ∧
    Says ∅ "A, \"x\"" "A" { fallback := some "x" } ∧
    ∃ e₁ db₂ e₂, used.database.entryFor? firstUse = some e₁ ∧
      used.apply (laterUse "x") = some (.ok db₂) ∧ db₂.database.entryFor? firstUse = some e₂ ∧
      e₁.UsedAgain (laterUse "x") e₂ := by
  have ha : ({} : IndexedDatabase).apply firstUse = some (.ok used) := apply_ofDatabase {} firstUse
  refine ⟨ha, says_firstUse, says_laterUse, ?_⟩
  have hread : parseArguments ∅ "A, \"x\", *: \"y\"" = .ok ⟨"A", wildTexts⟩ :=
    eq_ok_of_toOption (by decide +kernel)
  have hread' : parseArguments ∅ "A, \"x\"" = .ok ⟨"A", (laterUse "x").value⟩ :=
    eq_ok_of_toOption (by decide +kernel)
  have hdefines : Defines.Free ∅ '\x00' := fun name content h => by cases h
  have hne : sha256Hex wildTexts.message ≠ sha256Hex (laterUse "x").value.message := by
    decide +kernel
  have hfree : CollisionFree fun m =>
      m = wildTexts.message ∨ m = (laterUse "x").value.message := by
    rintro a b (rfl | rfl) (rfl | rfl) h
    · rfl
    · exact absurd h hne
    · exact absurd h.symm hne
    · rfl
  have hentry : used.database.entryFor? firstUse = some (.create "A" firstUse.candidate) := by
    decide +kernel
  have hentries : ∀ e, ({} : Database).entryFor? firstUse = some e ∨
      used.database.entryFor? firstUse = some e → e.value.NulFree ∧
        (e.value.message = wildTexts.message ∨ e.value.message = (laterUse "x").value.message) := by
    rintro e (h | h)
    · cases h
    · obtain rfl := Option.some.inj (hentry.symm.trans h)
      rw [Entry.value_create]
      exact ⟨nulFree_of_parseArguments hdefines (by decide) hread, .inl rfl⟩
  have hempty : Reachable (fun _ => True) {} := .empty
  obtain ⟨-, hparts⟩ := hempty.apply_part hfree hdefines (by decide) hread ha (.inl rfl) hentries
  obtain ⟨value, hvalue, hagain⟩ := hparts _ { fallback := some "x" } _ says_firstUse
    ⟨.inr rfl, List.nil_subset _⟩ says_laterUse (by decide)
  obtain rfl : (laterUse "x").value = value :=
    (Invocation.mk.inj (Except.ok.inj (hread'.symm.trans hvalue))).2
  refine (hagain (.inr rfl) (laterUse "x") ⟨rfl, by decide⟩ rfl).2 fun hmisses => ?_
  rw [Record.Misses, if_neg (by decide)] at hmisses
  cases hmisses.1

/-- The wildcard alone is a part too.  It is read as another fallback and refused. -/
theorem rejects_wildcard_alone :
    Says ∅ "A, \"x\", *: \"y\"" "A" { fallback := some "x", pairs := [("*", "y")] } ∧
    Said.PartOf { pairs := [("*", "y")] } { fallback := some "x", pairs := [("*", "y")] } ∧
    Says ∅ "A, *: \"y\"" "A" { pairs := [("*", "y")] } ∧
    parseArguments ∅ "A, \"x\", *: \"y\"" = .ok ⟨"A", firstUse.value⟩ ∧
    parseArguments ∅ "A, *: \"y\"" = .ok ⟨"A", (laterUse "y").value⟩ ∧
    ({} : IndexedDatabase).apply firstUse = some (.ok used) ∧
    used.apply (laterUse "y") = some (.error [
      ⟨"A", none, ⟨"x", ⟨"a.cpp", 1, 1⟩⟩, ⟨"y", ⟨"b.cpp", 1, 1⟩⟩⟩]) := by
  refine ⟨says_firstUse, ⟨.inl rfl, List.Subset.refl _⟩, says_wildcard,
    eq_ok_of_toOption (by decide +kernel), eq_ok_of_toOption (by decide +kernel),
    apply_ofDatabase {} firstUse, by decide +kernel⟩

end IndexedDatabase
end FlashStrings
