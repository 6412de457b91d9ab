import FlashStrings.Proofs.Invocation.Texts
import FlashStrings.Proofs.Merge.Entry

/-!
# The hash as a shortcut

A candidate whose hash is that of the entry is merged without a look at its
texts.  `Entry.mergeByKeys` is the merge that always looks.  The two agree, and a
member of the list for automatic initialisation takes exactly equal contents, as
long as the messages can be read back and SHA-256 has no collision among them
(`told_by_message`).

U+0000 is the mark between the parts of a message, and nothing keeps it out of a
source.  A text that holds it can stand for a text and a locale, and then a
conflict is not seen (`merge_joinedText`).
-/

namespace FlashStrings

namespace Entry

variable {e : Entry} {c : Candidate}

/-- Merge a candidate into a regular entry key by key, whatever its hash is. -/
def mergeByKeys (e : Entry) (c : Candidate) : Except (List Conflict) Entry :=
  match e.conflicts c with
  | [] => .ok (((e.adopt c).refreshHash.promote c).account c)
  | conflicts => .error conflicts

/-! ## Candidates without news -/

theorem offer_of_isSome {key : Option String} (h : (e.at? key).isSome = true) (t : SitedText) :
    e.offer key t = e := if_pos h

theorem adopt_of_isSome (h : ∀ key text, c.value.at? key = some text → (e.at? key).isSome = true) :
    e.adopt c = e := by
  have hkeys : ∀ x ∈ c.value.texts, (e.at? x.1).isSome = true := by
    rintro ⟨key, text⟩ hx
    exact h key text (Value.mem_texts_iff.1 hx)
  rw [adopt]
  generalize c.value.texts = l at hkeys
  induction l with
  | nil => rfl
  | cons x l ih =>
    obtain ⟨key, text⟩ := x
    obtain ⟨hkey, hl⟩ := List.forall_mem_cons.1 hkeys
    show l.foldl _ (e.offer key ⟨text, c.location⟩) = e
    rw [offer_of_isSome hkey, ih hl]

theorem refreshHash_of_eq (h : e.contentHash = e.value.contentHash) : e.refreshHash = e := by
  rw [refreshHash, ← h]

/-- A candidate that offers only texts that the entry holds changes no text. -/
theorem mergeByKeys_of_held (hhash : e.contentHash = e.value.contentHash)
    (h : ∀ key text, c.value.at? key = some text → e.value.at? key = some text) :
    e.mergeByKeys c = .ok ((e.promote c).account c) := by
  have hnone : e.conflicts c = [] := by
    rw [conflicts_eq_nil_iff]
    intro key text text' he hc
    exact Option.some.inj (he.symm.trans (h key text' hc))
  have hadopt : e.adopt c = e := by
    refine adopt_of_isSome fun key text hc => ?_
    have hat := h key text hc
    rw [at?_value] at hat
    obtain ⟨x, hx, -⟩ := Option.map_eq_some_iff.1 hat
    rw [hx]
    rfl
  rw [mergeByKeys, hnone]
  show Except.ok (((e.adopt c).refreshHash.promote c).account c) = _
  rw [hadopt, refreshHash_of_eq hhash]

/-! ## The shortcut -/

/-- The shortcut changes nothing where equal hashes mean equal texts. -/
theorem merge_eq_mergeByKeys (hhash : e.contentHash = e.value.contentHash)
    (htell : c.value.contentHash = e.value.contentHash → c.value = e.value) :
    e.merge c = e.mergeByKeys c := by
  rw [merge]
  split
  · next hfast =>
    rw [Bool.or_eq_true, beq_iff_eq] at hfast
    refine (mergeByKeys_of_held hhash fun key text hc => ?_).symm
    rcases hfast with hempty | hsame
    · rw [Value.at?_eq_none_of_isEmpty hempty] at hc
      cases hc
    · rwa [← htell (hsame.trans hhash)]
  · rfl

theorem merge_of_contentHash_eq (h : c.value.contentHash = e.contentHash) :
    e.merge c = .ok ((e.promote c).account c) := by
  rw [merge, if_pos (Bool.or_eq_true_iff.2 (.inr (beq_iff_eq.2 h)))]

theorem contentHash_create (identifier : String) (c : Candidate) :
    (create identifier c).contentHash = (create identifier c).value.contentHash := by
  simp [create]

/-- A first candidate gives an entry its value. -/
theorem value_create (identifier : String) (c : Candidate) :
    (create identifier c).value = c.value := by
  refine Value.ext_at? fun key => ?_
  rw [create, value_account, value_refreshHash, at?_value_adopt, at?_value_blank, Option.none_or]

/-- A member takes exactly the candidates with its hash. -/
theorem mergeMember_ok_iff :
    (∃ e', e.mergeMember c = .ok e') ↔ c.value.contentHash = e.contentHash := by
  rw [mergeMember]
  split
  · next h => exact ⟨fun _ => beq_iff_eq.1 h, fun _ => ⟨_, rfl⟩⟩
  · next h =>
    refine ⟨?_, fun heq => absurd (beq_iff_eq.2 heq) h⟩
    rintro ⟨_, he⟩
    cases he

end Entry

variable {defines : Defines}

/-- Without U+0000 in the sources and in the string defines, contents with one
message are equal.  For values without it, whose messages do not collide, the
shortcut of the merge is the merge key by key, and members take equal contents
only. -/
theorem told_by_message (hdefines : defines.Free '\x00') :
    (∀ source source' read read', '\x00' ∉ source.toList → '\x00' ∉ source'.toList →
        parseArguments defines source = .ok read → parseArguments defines source' = .ok read' →
        read.value.message = read'.value.message → read.value = read'.value) ∧
      ∀ (e : Entry) (c : Candidate), e.contentHash = e.value.contentHash →
        e.value.NulFree → c.value.NulFree →
        CollisionFree (fun m => m = e.value.message ∨ m = c.value.message) →
        e.merge c = e.mergeByKeys c ∧
          ((∃ e', e.mergeMember c = .ok e') ↔ c.value = e.value) := by
  constructor
  · intro source source' read read' hsource hsource' hread hread' hmessage
    exact Value.message_inj (nulFree_of_parseArguments hdefines hsource hread)
      (nulFree_of_parseArguments hdefines hsource' hread') hmessage
  · intro e c hhash he hc hfree
    have htell : c.value.contentHash = e.value.contentHash → c.value = e.value :=
      Value.eq_of_contentHash_eq hfree hc he (.inr rfl) (.inl rfl)
    refine ⟨Entry.merge_eq_mergeByKeys hhash htell, ?_⟩
    rw [Entry.mergeMember_ok_iff, hhash]
    exact ⟨htell, congrArg Value.contentHash⟩

/-! ### A text and a locale, or one text -/

/-- A fallback and a text for one locale. -/
def twoTexts : Value := { fallback := some "x", locales := .ofList [("de", "y")] }

/-- A fallback that holds the marks of a message. -/
def joinedText : Value := { fallback := some "x\x00de\x00y" }

/-- Another fallback. -/
def otherText : Value := { fallback := some "z" }

/-- A definition with these texts. -/
def offered (value : Value) : Candidate :=
  { origin := .fixed, value, location := ⟨"a.cpp", 1, 1⟩, isReference := false }

theorem told_by_message_sample :
    let e := Entry.create "A" (offered twoTexts)
    e.merge (offered otherText) = e.mergeByKeys (offered otherText) ∧
      ((∃ e', e.mergeMember (offered otherText) = .ok e') ↔ otherText = e.value) := by
  intro e
  have hdefines : Defines.Free ∅ '\x00' := fun name content h => by cases h
  have hvalue : e.value = twoTexts := Entry.value_create _ _
  have htwo : twoTexts.NulFree :=
    nulFree_of_parseArguments hdefines (by decide)
      (eq_ok_of_toOption (a := ⟨"A", twoTexts⟩)
        (show (parseArguments ∅ "A, \"x\", de: \"y\"").toOption = _ by decide +kernel))
  have hother : otherText.NulFree :=
    nulFree_of_parseArguments hdefines (by decide)
      (eq_ok_of_toOption (a := ⟨"A", otherText⟩)
        (show (parseArguments ∅ "A, \"z\"").toOption = _ by decide +kernel))
  have hmessage : twoTexts.message = [1, 0x78, 0, 0x64, 0x65, 0, 0x79] := by decide +kernel
  have hmessage' : otherText.message = [1, 0x7a] := by decide +kernel
  have hne : sha256Hex twoTexts.message ≠ sha256Hex otherText.message := by
    rw [hmessage, hmessage']
    decide +kernel
  have hfree : CollisionFree fun m => m = e.value.message ∨ m = otherText.message := by
    rw [hvalue]
    rintro a b (rfl | rfl) (rfl | rfl) h
    · rfl
    · exact absurd h hne
    · exact absurd h.symm hne
    · rfl
  exact (told_by_message hdefines).2 e (offered otherText) (Entry.contentHash_create _ _)
    (hvalue ▸ htwo) hother hfree

/-- Two invocations with different texts and one message: the second is merged
into the entry of the first, and its text is lost. -/
theorem merge_joinedText :
    parseArguments ∅ "A, \"x\", de: \"y\"" = .ok ⟨"A", twoTexts⟩ ∧
      parseArguments ∅ "A, \"x\x00de\x00y\"" = .ok ⟨"A", joinedText⟩ ∧
      twoTexts.message = joinedText.message ∧
      let e := Entry.create "A" (offered twoTexts)
      e.conflicts (offered joinedText) ≠ [] ∧
        ∃ e', e.merge (offered joinedText) = .ok e' ∧ e'.value = twoTexts := by
  have hmessage : twoTexts.message = joinedText.message := by decide +kernel
  refine ⟨eq_ok_of_toOption (by decide +kernel), eq_ok_of_toOption (by decide +kernel), hmessage,
    by decide +kernel, _, Entry.merge_of_contentHash_eq ?_, ?_⟩
  · rw [Entry.contentHash_create, Entry.value_create]
    exact congrArg sha256Hex hmessage.symm
  · rw [Entry.value_account, Entry.value_promote, Entry.value_create]
    rfl

end FlashStrings
