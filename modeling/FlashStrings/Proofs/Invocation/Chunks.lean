import FlashStrings.Proofs.Invocation.Texts
import FlashStrings.Proofs.Invocation.Tokens
import FlashStrings.Proofs.Literal.PlainText

/-!
# Stored texts between quotes

A stored text is the content of one literal, or of several with literal breaks in
between.  `Chunks contents s` says that the text `s` falls into these contents, and
that each break stands where it is needed.  Between double quotes such a text is the
sequence of the literals (`Chunks.spaced`), and putting their contents together gives
the text again (`Chunks.concatSegments_eq`).

Texts of all three origins are stored in this form: values of invocations
(`pastable_of_operand`), texts of the settings (`pastable_escapeText`) and
display texts (`pastable_displayText`).
-/

namespace FlashStrings

open CLiteral (quoted)

/-- The text consists of these contents, with a literal break before each content
whose first character the text so far would take as a digit. -/
inductive Chunks : List (List Char) → List Char → Prop where
  | one {content : List Char} : isQuotable content = true → Chunks [content] content
  | more {contents : List (List Char)} {s : List Char} {c : Char} {rest : List Char} :
    Chunks contents s → (Escape.after s).absorbs c = true → isQuotable (c :: rest) = true →
    Chunks (contents ++ [c :: rest]) (s ++ literalBreak ++ c :: rest)

/-- A string define can stand between double quotes: its text has no quote without a
backslash before it, and no backslash is left over.  It never holds a newline, as a
define stands in one line. -/
def Defines.Quotable (defines : Defines) : Prop :=
  ∀ name content, defines.get? name = some content → isQuotable content.toList = true

/-- The text falls into contents of literals. -/
def Pastable (text : String) : Prop := ∃ contents, Chunks contents text.toList

namespace Chunks

variable {contents : List (List Char)} {s t : List Char}

theorem ne_nil (h : Chunks contents s) : contents ≠ [] := by
  cases h with
  | one => exact List.cons_ne_nil _ _
  | more => simp

theorem isQuotable (h : Chunks contents s) : ∀ content ∈ contents, isQuotable content = true := by
  induction h with
  | one hc => exact List.forall_mem_singleton.2 hc
  | more _ _ hc ih => exact List.forall_mem_append.2 ⟨ih, List.forall_mem_singleton.2 hc⟩

/-- The contents make the text again. -/
theorem concatSegments_eq (h : Chunks contents s) : concatSegments contents = s := by
  induction h with
  | one => exact Argument.concatSegments_singleton _
  | more _ habsorbs _ ih =>
    rw [concatSegments, List.foldl_append, ← concatSegments, ih]
    exact if_pos habsorbs

/-- Between double quotes the text is a sequence of literals. -/
theorem spaced (h : Chunks contents s) : Spaced isBlank (contents.map quoted) (quoted s) := by
  induction h with
  | @one content _ => exact .single isBlank (quoted content)
  | @more contents s c rest _ _ _ ih =>
    have hspace : isBlank ' ' = true := rfl
    have hall := ih.append (.blank hspace (.single isBlank (quoted (c :: rest))))
    have htext : quoted s ++ ' ' :: quoted (c :: rest) =
        quoted (s ++ literalBreak ++ c :: rest) := by
      simp [quoted, literalBreak]
    rwa [htext, ← List.map_singleton, ← List.map_append] at hall

/-- More characters can stand behind the last content. -/
theorem extend (h : Chunks contents s) (ht : FlashStrings.isQuotable t = true) :
    ∃ contents', Chunks contents' (s ++ t) := by
  cases h with
  | one hc => exact ⟨_, .one (isQuotable_append hc ht)⟩
  | @more contents s c rest hs habsorbs hc =>
    refine ⟨contents ++ [c :: (rest ++ t)], ?_⟩
    rw [List.append_assoc]
    exact .more hs habsorbs (isQuotable_append hc ht)

theorem appendSegment (h : Chunks contents s) (ht : FlashStrings.isQuotable t = true) :
    ∃ contents', Chunks contents' (appendSegment s t) := by
  cases t with
  | nil => exact ⟨contents, h⟩
  | cons c t =>
    rw [FlashStrings.appendSegment]
    split
    · next habsorbs => exact ⟨_, .more h habsorbs ht⟩
    · exact h.extend ht

end Chunks

/-- Contents of literals make a text that falls into contents of literals. -/
theorem pastable_concatSegments {segments : List (List Char)}
    (h : ∀ segment ∈ segments, isQuotable segment = true) :
    Pastable (String.ofList (concatSegments segments)) := by
  have hfold : ∀ (segments contents : List (List Char)) (s : List Char), Chunks contents s →
      (∀ segment ∈ segments, isQuotable segment = true) →
      ∃ contents', Chunks contents' (segments.foldl appendSegment s) := by
    intro segments
    induction segments with
    | nil => exact fun contents s hs _ => ⟨contents, hs⟩
    | cons segment segments ih =>
      intro contents s hs h
      obtain ⟨hsegment, hsegments⟩ := List.forall_mem_cons.1 h
      obtain ⟨next, hnext⟩ := hs.appendSegment hsegment
      exact ih next _ hnext hsegments
  obtain ⟨contents, hcontents⟩ := hfold segments [[]] [] (.one rfl) h
  exact ⟨contents, by rwa [String.toList_ofList]⟩

/-- The content of an operand, if its literals and the string defines are closed. -/
theorem pastable_of_operand {defines : Defines} (hdefines : defines.Quotable) {ps : List Piece}
    (hps : ∀ body, .literal '"' body ∈ ps → isQuotable body = true) {content : String}
    (h : Argument.operand defines ps = .text content) : Pastable content := by
  rcases Argument.eq_of_operand h with ⟨name, hname⟩ | ⟨contents, rfl, hcontents⟩
  · exact ⟨_, .one (hdefines name content hname)⟩
  · refine pastable_concatSegments fun c hc => ?_
    rcases hcontents c hc with hliteral | ⟨name, stored, hstored, rfl⟩
    · exact hps c hliteral
    · exact hdefines name stored hstored

theorem isQuotable_escapeChar (c : Char) : isQuotable (escapeChar c) = true := by
  obtain ⟨-, -, he⟩ | ⟨-, -, d, he, -⟩ | ⟨-, he, hread⟩ := CLiteral.escapeChar_cases c
  · rw [he]
    show isQuotable (hexByte _) = true
    refine isQuotable_of_forall fun d hd => ?_
    have hdigit : isHexDigit d = true := by
      rcases List.mem_cons.1 hd with rfl | hd
      · exact CLiteral.isHexDigit_hexDigit (Nat.div_lt_of_lt_mul (UInt8.toNat_lt _))
      · obtain rfl := List.mem_singleton.1 hd
        exact CLiteral.isHexDigit_hexDigit (Nat.mod_lt _ (by decide))
    refine ⟨?_, CLiteral.ne_backslash_of_isHexDigit hdigit, ?_⟩
    · rintro rfl
      cases hdigit
    · rintro rfl
      cases hdigit
  · rw [he]
    rfl
  · rw [he]
    refine isQuotable_of_forall fun d hd => ?_
    obtain rfl := List.mem_singleton.1 hd
    rw [CLiteral.readPlain] at hread
    split_ifs at hread with hquote hbackslash hnewline
    · cases hread
    · cases hread
    · exact ⟨hquote, hbackslash, hnewline⟩

/-- A text of the settings. -/
theorem pastable_escapeText (text : String) : Pastable (escapeText text) := by
  have hquotable : ∀ s : List Char, isQuotable (s.flatMap escapeChar) = true := by
    intro s
    induction s with
    | nil => rfl
    | cons c s ih =>
      rw [List.flatMap_cons]
      exact isQuotable_append (isQuotable_escapeChar c) ih
  refine ⟨_, .one ?_⟩
  rw [escapeText, String.toList_ofList]
  exact hquotable text.toList

/-- The display text of an identifier. -/
theorem pastable_displayText {identifier : String} (h : isIdentifier identifier = true) :
    Pastable (displayText identifier) := by
  refine ⟨_, .one (isQuotable_of_forall fun c hc => ?_)⟩
  rw [displayText, String.toList_map] at hc
  obtain ⟨d, hd, rfl⟩ := List.mem_map.1 hc
  have hname := isNameChar_of_mem_identifier h hd
  split
  · decide
  · refine ⟨fun hq => not_quote_of_isNameChar hname (.inl hq), ?_, ?_⟩
    · rintro rfl
      cases hname
    · rintro rfl
      cases hname

end FlashStrings
