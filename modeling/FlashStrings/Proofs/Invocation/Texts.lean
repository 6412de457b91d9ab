import FlashStrings.Proofs.Digest.Content
import FlashStrings.Proofs.Invocation.Pieces
import FlashStrings.Proofs.Merge.Keys

/-!
# What the texts of a value are made of

Every text of a value that was read is the content of an operand, and every locale
code is valid.  So what holds of the contents of operands holds of the texts
(`Argument.each_of_readAll`).

An operand consists of literals of the argument text and of string defines
(`Argument.mem_segments?`), with the quotes and the space of a literal break in
between.  So a character that stands in none of them stands in no text.  For the
character U+0000 this means that a value that was read from arguments without it
has a message that can be read back (`nulFree_of_parseArguments`).
-/

namespace FlashStrings

/-- The character stands in no string define. -/
def Defines.Free (defines : Defines) (d : Char) : Prop :=
  ∀ name content, defines.get? name = some content → d ∉ content.toList

/-- The texts of the value have a property, and the locale codes are valid. -/
structure Value.Each (v : Value) (P : String → Prop) : Prop where
  /-- Every text has the property. -/
  texts : ∀ key text, v.at? key = some text → P text
  /-- Every locale code is one. -/
  codes : ∀ code text, v.at? (some code) = some text → isLocaleCode code = true

variable {defines : Defines} {d : Char} {P : String → Prop}

/-! ## Adjacent literals -/

theorem mem_appendSegment {content segment : List Char} (h : d ∈ appendSegment content segment) :
    d ∈ content ∨ d ∈ literalBreak ∨ d ∈ segment := by
  unfold appendSegment at h
  split at h
  · exact .inl h
  · split at h
    · simpa [or_assoc] using h
    · exact (List.mem_append.1 h).imp_right .inr

theorem mem_foldl_appendSegment {segments : List (List Char)} {content : List Char}
    (h : d ∈ segments.foldl appendSegment content) :
    d ∈ content ∨ d ∈ literalBreak ∨ ∃ segment ∈ segments, d ∈ segment := by
  induction segments generalizing content with
  | nil => exact .inl h
  | cons segment segments ih =>
    rcases ih h with h | h | ⟨s, hs, hd⟩
    · rcases mem_appendSegment h with h | h | h
      · exact .inl h
      · exact .inr (.inl h)
      · exact .inr (.inr ⟨segment, List.mem_cons_self, h⟩)
    · exact .inr (.inl h)
    · exact .inr (.inr ⟨s, List.mem_cons_of_mem _ hs, hd⟩)

namespace Argument

/-! ## Operands -/

theorem text_subset {ps qs : List Piece} (h : ps ⊆ qs) : text ps ⊆ text qs := by
  intro c hc
  obtain ⟨p, hp, hc⟩ := List.mem_flatMap.1 hc
  exact List.mem_flatMap.2 ⟨p, h hp, hc⟩

theorem mem_flush {word : List Char} {rest contents : List (List Char)}
    (h : segments?.flush defines word rest = some contents) {content : List Char}
    (hmem : content ∈ contents) :
    content ∈ rest ∨ ∃ name stored, defines.get? name = some stored ∧ content = stored.toList := by
  unfold segments?.flush at h
  split at h
  · obtain rfl := Option.some.inj h
    exact .inl hmem
  · obtain ⟨stored, hstored, rfl⟩ := Option.map_eq_some_iff.1 h
    rcases List.mem_cons.1 hmem with rfl | hmem
    · exact .inr ⟨_, stored, hstored, rfl⟩
    · exact .inl hmem

/-- A segment is the content of a literal or of a string define. -/
theorem mem_segments? {word : List Char} {ps : List Piece} {contents : List (List Char)}
    (h : segments? defines word ps = some contents) {content : List Char}
    (hmem : content ∈ contents) :
    .literal '"' content ∈ ps ∨ ∃ name stored, defines.get? name = some stored ∧
      content = stored.toList := by
  fun_induction segments? defines word ps generalizing contents with
  | case1 =>
    rcases mem_flush h hmem with hmem | hdefine
    · cases hmem
    · exact .inr hdefine
  | case2 word c ps hc ih => exact (ih h hmem).imp_left (List.mem_cons_of_mem _)
  | case3 word c ps _ hc ih =>
    obtain ⟨rest, hrest, h⟩ := Option.bind_eq_some_iff.1 h
    rcases mem_flush h hmem with hmem | hdefine
    · exact (ih hrest hmem).imp_left (List.mem_cons_of_mem _)
    · exact .inr hdefine
  | case4 => cases h
  | case5 word body ps ih =>
    obtain ⟨rest, hrest, h⟩ := Option.bind_eq_some_iff.1 h
    rcases mem_flush h hmem with hmem | hdefine
    · rcases List.mem_cons.1 hmem with rfl | hmem
      · exact .inl List.mem_cons_self
      · exact (ih hrest hmem).imp_left (List.mem_cons_of_mem _)
    · exact .inr hdefine
  | case6 => cases h

/-- The content of an operand is a string define, or it is put together from
literals and string defines. -/
theorem eq_of_operand {ps : List Piece} {content : String}
    (h : operand defines ps = .text content) :
    (∃ name, defines.get? name = some content) ∨
      ∃ contents, content = String.ofList (concatSegments contents) ∧
        ∀ c ∈ contents, .literal '"' c ∈ ps ∨
          ∃ name stored, defines.get? name = some stored ∧ c = stored.toList := by
  have hsub : unwrap (trim ps) ⊆ ps := List.Subset.trans (unwrap_subset _) (trim_subset ps)
  simp only [operand] at h
  split at h
  · cases h
  · split at h
    · split at h
      · next stored hstored =>
        obtain rfl := Operand.text.inj h
        exact .inl ⟨_, hstored⟩
      · cases h
    · split at h
      · next contents hcontents =>
        obtain rfl := Operand.text.inj h
        exact .inr ⟨contents, rfl, fun c hc =>
          (mem_segments? hcontents hc).imp_left fun hmem => hsub hmem⟩
      · cases h

/-- The text of an operand has no character but those of the pieces, of string
defines and of literal breaks. -/
theorem not_mem_of_operand {ps : List Piece} {content : String} (hdefines : defines.Free d)
    (hbreak : d ∉ literalBreak) (hps : d ∉ text ps) (h : operand defines ps = .text content) :
    d ∉ content.toList := by
  rcases eq_of_operand h with ⟨name, hstored⟩ | ⟨contents, rfl, hcontents⟩
  · exact hdefines _ _ hstored
  · rw [String.toList_ofList]
    intro hd
    rcases mem_foldl_appendSegment hd with hd | hd | ⟨segment, hsegment, hd⟩
    · cases hd
    · exact hbreak hd
    · rcases hcontents segment hsegment with hliteral | ⟨name, stored, hstored, rfl⟩
      · refine hps (List.mem_flatMap.2 ⟨_, hliteral, ?_⟩)
        simp [Piece.text, hd]
      · exact hdefines _ _ hstored hd

/-- A word that is no text has the form of a locale code. -/
theorem isLocaleCode_of_operand {ps : List Piece} {code : String}
    (h : operand defines ps = .word code) : isLocaleCode code = true := by
  simp only [operand] at h
  split at h
  · cases h
  · split at h
    · next hcode =>
      split at h
      · cases h
      · obtain rfl := Operand.word.inj h
        exact hcode
    · split at h <;> cases h

end Argument

/-! ## Values -/

namespace Value

variable {v v' : Value}

theorem each_empty (P : String → Prop) : Each {} P where
  texts key text h := by cases key <;> cases h
  codes code text h := by cases h

theorem Each.withFallback (h : v.Each P) {text : String} (ht : P text) :
    Each { v with fallback := some text } P where
  texts key text' h' := by
    cases key with
    | none =>
      obtain rfl := Option.some.inj h'
      exact ht
    | some code => exact h.texts (some code) text' h'
  codes := h.codes

theorem Each.assign (h : v.Each P) {code text : String} (hcode : isLocaleCode code = true)
    (ht : P text) (ha : v.assign code text = .ok v') : v'.Each P := by
  unfold Value.assign at ha
  split at ha
  · split at ha
    · obtain rfl := Except.ok.inj ha
      exact h
    · cases ha
  · obtain rfl := Except.ok.inj ha
    have hat : ∀ code' text', ({ v with locales := v.locales.insert code text } : Value).at?
        (some code') = some text' → code' = code ∧ text' = text ∨
          v.at? (some code') = some text' := by
      intro code' text' h'
      rw [at?, SortedMap.get?_insert] at h'
      split at h'
      · next heq => exact .inl ⟨heq, (Option.some.inj h').symm⟩
      · exact .inr h'
    constructor
    · intro key text' h'
      cases key with
      | none => exact h.texts none text' h'
      | some code' =>
        rcases hat code' text' h' with ⟨-, rfl⟩ | h'
        · exact ht
        · exact h.texts _ text' h'
    · intro code' text' h'
      rcases hat code' text' h' with ⟨rfl, -⟩ | h'
      · exact hcode
      · exact h.codes code' text' h'

theorem Each.foldlM_assign (h : v.Each P) {codes : List String} {text : String}
    (hcodes : ∀ code ∈ codes, isLocaleCode code = true) (ht : P text)
    (ha : codes.foldlM (fun v code => v.assign code text) v = .ok v') : v'.Each P := by
  induction codes generalizing v with
  | nil =>
    obtain rfl := Except.ok.inj ha
    exact h
  | cons code codes ih =>
    obtain ⟨hcode, hcodes⟩ := List.forall_mem_cons.1 hcodes
    rw [List.foldlM_cons] at ha
    obtain ⟨w, hv, ha⟩ := bind_eq_ok ha
    exact ih (h.assign hcode ht hv) hcodes ha

/-- The normal form has the texts of the value, and none under a new code. -/
theorem Each.normalizeWildcard (h : v.Each P) : v.normalizeWildcard.Each P := by
  have herase : ∀ code text, (v.locales.erase wildcardLocale).get? code = some text →
      v.at? (some code) = some text := by
    intro code text h'
    rw [SortedMap.get?_erase] at h'
    split at h'
    · cases h'
    · exact h'
  unfold Value.normalizeWildcard
  split
  · exact h
  · next wild hwild =>
    have hlocales : Each { v with locales := v.locales.erase wildcardLocale } P := by
      refine ⟨fun key text h' => ?_, fun code text h' => h.codes code text (herase code text h')⟩
      cases key with
      | none => exact h.texts none text h'
      | some code => exact h.texts (some code) text (herase code text h')
    split
    · exact hlocales.withFallback (h.texts (some wildcardLocale) wild hwild)
    · next fallback hfallback =>
      split
      · exact hlocales
      · exact h

/-- Locale codes have no foreign character, so a value whose texts have none
either has a message that can be read back. -/
theorem Each.nulFree (h : v.Each ('\x00' ∉ ·.toList)) : v.NulFree := by
  refine ⟨fun text ht => h.texts none text ht, ?_⟩
  rintro ⟨code, text⟩ he
  have hat : v.at? (some code) = some text := SortedMap.get?_eq_some_iff.2 he
  refine ⟨fun hmem => ?_, h.texts _ text hat⟩
  have hcode := h.codes code text hat
  have hforeign : Argument.isForeign '\x00' = true := by decide
  rw [← String.ofList_toList (s := code), Argument.not_isLocaleCode_of_mem hmem hforeign] at hcode
  cases hcode

end Value

/-! ## Arguments -/

namespace Argument

/-- The contents of all operands among the pieces have a property. -/
def OperandsHave (defines : Defines) (P : String → Prop) (ps : List Piece) : Prop :=
  ∀ rest ⊆ ps, ∀ content, operand defines rest = .text content → P content

theorem each_of_readValues {first : Bool} {value result : Value} {pending : List String}
    {args : List (List Piece)} (hv : value.Each P)
    (hpending : ∀ code ∈ pending, isLocaleCode code = true)
    (hargs : ∀ arg ∈ args, OperandsHave defines P arg)
    (h : readValues defines first value pending args = .ok result) : result.Each P := by
  induction args generalizing first value pending with
  | nil =>
    rw [readValues] at h
    split at h
    · obtain rfl := Except.ok.inj h
      exact hv
    · cases h
  | cons arg args ih =>
    obtain ⟨harg, hargs⟩ := List.forall_mem_cons.1 hargs
    rcases readValues_cons h with ⟨label, rest, codes, content, value', hlabel, hcodes, hoperand,
      hassign, h⟩ | ⟨content, -, hoperand, -, h⟩ | ⟨code, -, hoperand, -, h⟩
    · have hrest : rest ⊆ arg := by
        rw [eq_of_label? hlabel]
        exact List.Subset.trans (List.subset_cons_self _ rest) (List.subset_append_right label _)
      have hall : ∀ code ∈ pending ++ codes, isLocaleCode code = true := fun code hcode =>
        (List.mem_append.1 hcode).elim (hpending code) ((localeCodes_eq_ok hcodes).2 code)
      exact ih (hv.foldlM_assign hall (harg rest hrest content hoperand) hassign)
        (List.forall_mem_nil _) hargs h
    · exact ih (hv.withFallback (harg arg (List.Subset.refl arg) content hoperand)) hpending
        hargs h
    · refine ih hv (fun code' hcode' => ?_) hargs h
      rcases List.mem_append.1 hcode' with hcode' | hcode'
      · exact hpending code' hcode'
      · obtain rfl := List.mem_singleton.1 hcode'
        exact isLocaleCode_of_operand hoperand

/-- The texts of a value are contents of operands. -/
theorem each_of_readAll {closed : Bool} {ps : List Piece} {read : Invocation}
    (hps : OperandsHave defines P ps) (h : readAll defines closed ps = .ok read) :
    read.value.Each P := by
  obtain ⟨parts, hparts, -, -, hvalue⟩ := readAll_eq_ok h
  rcases readValue_eq_ok hvalue with ⟨-, hempty⟩ | ⟨v, hv, hnormal⟩
  · rw [hempty]
    exact Value.each_empty P
  · rw [← hnormal]
    refine (each_of_readValues (Value.each_empty P) (List.forall_mem_nil _) ?_ hv).normalizeWildcard
    intro arg harg
    obtain ⟨part, hpart, rfl⟩ := List.mem_map.1 (List.mem_of_mem_tail harg)
    have hsub : trim part ⊆ ps :=
      List.Subset.trans (trim_subset part) (subset_of_split hparts hpart)
    exact fun rest hrest => hps rest (List.Subset.trans hrest hsub)

end Argument

/-- A value that was read from a text without U+0000 has none. -/
theorem nulFree_of_parseArguments {source : String} {read : Invocation}
    (hdefines : defines.Free '\x00') (hsource : '\x00' ∉ source.toList)
    (h : parseArguments defines source = .ok read) : read.value.NulFree := by
  have hps : '\x00' ∉ Argument.text (Argument.read source.toList).1 := by
    intro hmem
    rw [← Argument.text_read source.toList] at hsource
    exact hsource (List.mem_append_left _ hmem)
  have hbreak : '\x00' ∉ literalBreak := by decide
  refine (Argument.each_of_readAll (fun rest hrest content hoperand => ?_) h).nulFree
  exact Argument.not_mem_of_operand hdefines hbreak
    (fun hmem => hps (Argument.text_subset hrest hmem)) hoperand

end FlashStrings
