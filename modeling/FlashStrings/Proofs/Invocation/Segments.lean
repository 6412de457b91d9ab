import Mathlib.Data.List.Induction
import FlashStrings.Invocation.Operand
import FlashStrings.Proofs.Literal.Complete
import FlashStrings.Proofs.Literal.Initializer
import FlashStrings.Proofs.Text.Class

/-!
# The segments of a value

`Argument.Spells` says which texts are a value: literals and names of string
defines, with blanks where they are wanted and at least one between two names.
Such a text is read as the sequence of its contents (`Spells.segments?`), and the
operand is the text that they make together (`operand_of_segments?`), whether it
is a lone name, which looks like a locale code, or not.
-/

namespace FlashStrings

namespace Argument

variable {defines : Defines}

/-- The text is a sequence of literals and names of string defines with these
contents. -/
inductive Spells (defines : Defines) : List Char → List (List Char) → Prop where
  | nil : Spells defines [] []
  | blank {c : Char} {text : List Char} {contents : List (List Char)} :
    isBlank c = true → Spells defines text contents → Spells defines (c :: text) contents
  | literal {content text : List Char} {contents : List (List Char)} :
    Spells defines text contents →
    Spells defines ('"' :: content ++ '"' :: text) (content :: contents)
  | name {name text : List Char} {content : String} {contents : List (List Char)} :
    name ≠ [] → name.all isNameChar = true → defines.get? (String.ofList name) = some content →
    text.head?.any isNameChar = false → Spells defines text contents →
    Spells defines (name ++ text) (content.toList :: contents)

/-! ## Characters -/

theorem not_quote_of_isBlank {c : Char} (h : isBlank c = true) : ¬(c = '"' ∨ c = '\'') := by
  rintro (rfl | rfl)
  · cases h
  · cases h

/-- A character of an identifier or of a locale code. -/
def isWordChar (c : Char) : Bool := isLocaleChar c || c == '*'

theorem isWordChar_of_mem {code : String} (h : isLocaleCode code = true) {c : Char}
    (hc : c ∈ code.toList) : isWordChar c = true := by
  simp only [isLocaleCode, Bool.or_eq_true, beq_iff_eq, Bool.and_eq_true] at h
  rcases h with rfl | ⟨-, h⟩
  · obtain rfl : c = '*' := by simpa [wildcardLocale] using hc
    rfl
  · rw [isWordChar, List.all_eq_true.1 h c hc, Bool.true_or]

theorem isBlank_of_isWordChar {c : Char} (h : isWordChar c = true) : isBlank c = false := by
  simp only [isWordChar, isLocaleChar, Bool.or_eq_true, beq_iff_eq] at h
  rcases h with (hname | rfl) | rfl
  · exact not_isBlank_of_isNameChar hname
  · decide
  · decide

theorem not_quote_of_isWordChar {c : Char} (h : isWordChar c = true) :
    ¬(c = '"' ∨ c = '\'') := by
  rintro (rfl | rfl)
  · exact absurd h (by decide)
  · exact absurd h (by decide)

/-! ## Reading the pieces -/

theorem read_char {c : Char} (h : ¬(c = '"' ∨ c = '\'')) (s : List Char) :
    read (c :: s) = (.char c :: (read s).1, (read s).2) := by
  rw [read, if_neg h]

theorem read_literal {content rest s : List Char} (h : quoted? '"' s = some (content, rest)) :
    read ('"' :: s) = (.literal '"' content :: (read rest).1, (read rest).2) := by
  rw [read, if_pos (.inl rfl)]
  split
  · next body rest' h' =>
    obtain ⟨rfl, rfl⟩ := Prod.mk.inj (Option.some.inj (h.symm.trans h'))
    rfl
  · next h' => simp [h] at h'

theorem read_append {cs : List Char} (h : ∀ c ∈ cs, ¬(c = '"' ∨ c = '\'')) (s : List Char) :
    read (cs ++ s) = (cs.map .char ++ (read s).1, (read s).2) := by
  induction cs with
  | nil => rfl
  | cons c cs ih =>
    rw [List.cons_append, read_char (h c List.mem_cons_self),
      ih fun d hd => h d (List.mem_cons_of_mem _ hd)]
    rfl

/-! ## Segments -/

theorem segments?_append (word : List Char) {name : List Char} (h : name.all isNameChar = true)
    (ps : List Piece) :
    segments? defines word (name.map .char ++ ps) =
      segments? defines (name.reverse ++ word) ps := by
  induction name generalizing word with
  | nil => rfl
  | cons c name ih =>
    obtain ⟨hc, h⟩ := Bool.and_eq_true_iff.1 ((List.all_cons ..).symm.trans h)
    rw [List.map_cons, List.cons_append, segments?, if_pos hc, ih _ h, List.reverse_cons,
      List.append_assoc]
    rfl

theorem segments?_blank (word : List Char) {c : Char} (h : isBlank c = true) (ps : List Piece) :
    segments? defines word (.char c :: ps) =
      (segments? defines [] ps).bind (segments?.flush defines word) := by
  rw [segments?, if_neg (by simp [not_isNameChar_of_isBlank h]), if_pos h]
  rfl

theorem segments?_skip {c : Char} (h : isBlank c = true) (ps : List Piece) :
    segments? defines [] (.char c :: ps) = segments? defines [] ps := by
  rw [segments?_blank [] h]
  exact Option.bind_fun_some _

theorem flush_reverse {name : List Char} (h : name ≠ []) (rest : List (List Char)) :
    segments?.flush defines name.reverse rest =
      (defines.get? (String.ofList name)).map fun content => content.toList :: rest := by
  cases hr : name.reverse with
  | nil => exact absurd (List.reverse_eq_nil_iff.1 hr) h
  | cons c cs =>
    show (defines.get? (String.ofList (c :: cs).reverse)).map _ = _
    rw [← hr, List.reverse_reverse]

/-- A name ends before a piece that is no character of a name. -/
theorem segments?_flush (word : List Char) {ps : List Piece}
    (h : ∀ c rest, ps = .char c :: rest → isNameChar c = false) :
    segments? defines word ps =
      (segments? defines [] ps).bind (segments?.flush defines word) := by
  cases ps with
  | nil => rfl
  | cons p ps =>
    cases p with
    | char c =>
      have hn := h c ps rfl
      by_cases hb : isBlank c = true
      · rw [segments?_skip hb, segments?_blank word hb]
      · rw [segments?, segments?, if_neg (by simp [hn]), if_neg hb, if_neg (by simp [hn]),
          if_neg hb]
        rfl
    | literal q body =>
      by_cases hq : q = '"'
      · subst hq
        rw [segments?, segments?]
        cases segments? defines [] ps <;> rfl
      · rw [segments?, segments?]
        · rfl
        · exact fun hq' => hq hq'
        · exact fun hq' => hq hq'

/-- A value is read as its contents. -/
theorem Spells.segments?_read {text : List Char} {contents : List (List Char)}
    (h : Spells defines text contents)
    (hc : ∀ content ∈ contents, CLiteral.isComplete content = true) :
    (read text).2 = [] ∧ segments? defines [] (read text).1 = some contents := by
  induction h with
  | nil => exact ⟨by rw [read], by rw [read]; rfl⟩
  | blank hb _ ih =>
    rw [read_char (not_quote_of_isBlank hb), segments?_skip hb]
    exact ih hc
  | @literal content text contents _ ih =>
    obtain ⟨htail, hps⟩ := ih fun c h => hc c (List.mem_cons_of_mem _ h)
    have hq := quoted?_of_isQuotable
      (CLiteral.isQuotable_of_isComplete (hc content List.mem_cons_self)) text
    rw [List.cons_append, read_literal hq]
    refine ⟨htail, ?_⟩
    rw [segments?, hps]
    rfl
  | @name name text content contents hne hname hget hhead _ ih =>
    obtain ⟨htail, hps⟩ := ih fun c h => hc c (List.mem_cons_of_mem _ h)
    rw [read_append fun c h => not_quote_of_isNameChar (List.all_eq_true.1 hname c h)]
    refine ⟨htail, ?_⟩
    rw [segments?_append [] hname, List.append_nil, segments?_flush _ ?_, hps, Option.bind_some,
      flush_reverse hne, hget]
    · rfl
    · intro c rest hread
      have htext := text_read text
      rw [hread] at htext
      have : text.head? = some c := by rw [← htext]; rfl
      simpa [this] using hhead

/-! ## Operands -/

theorem segments?_append_blank {c : Char} (h : isBlank c = true) (word : List Char)
    (ps : List Piece) :
    segments? defines word (ps ++ [.char c]) = segments? defines word ps := by
  fun_induction segments? defines word ps with
  | case1 word => exact segments?_blank word h []
  | case2 word d ps hd ih => rw [List.cons_append, segments?, if_pos hd, ih]
  | case3 word d ps hd hb ih =>
    rw [List.cons_append, segments?, if_neg hd, if_pos hb, ih]
  | case4 word d ps hd hb => rw [List.cons_append, segments?, if_neg hd, if_neg hb]
  | case5 word body ps ih => rw [List.cons_append, segments?, ih]
  | case6 word q body ps hq => rw [List.cons_append, segments?]; exact hq

theorem segments?_trim (ps : List Piece) :
    segments? defines [] (trim ps) = segments? defines [] ps := by
  have hfront : segments? defines [] (ps.dropWhile Piece.isBlank) = segments? defines [] ps := by
    induction ps with
    | nil => rfl
    | cons p ps ih =>
      rw [List.dropWhile_cons]
      split
      · next hb =>
        cases p with
        | char c => rw [ih, segments?_skip hb]
        | literal => cases hb
      · rfl
  rw [← hfront, trim, trimWhile]
  induction ps.dropWhile Piece.isBlank using List.reverseRecOn with
  | nil => rfl
  | append_singleton ps p ih =>
    rw [dropWhileEnd, List.reverse_append, List.reverse_singleton, List.singleton_append,
      List.dropWhile_cons]
    split
    · next hb =>
      cases p with
      | char c => rw [segments?_append_blank hb]; exact ih
      | literal => cases hb
    · rw [List.reverse_cons, List.reverse_reverse]

theorem unwrap_of_none {ps : List Piece} (h : unwrap? ps = none) : unwrap ps = ps := by
  rw [unwrap]
  split
  · next hsome => simp [h] at hsome
  · rfl

/-- No parentheses wrap a sequence of literals and names. -/
theorem unwrap_of_segments? {ps : List Piece} {contents : List (List Char)}
    (h : segments? defines [] ps = some contents) : unwrap ps = ps := by
  have hnone : unwrap? ps = none := by
    unfold unwrap?
    split
    · next ps =>
      rw [segments?, if_neg (by decide), if_neg (by decide)] at h
      cases h
    · rfl
  exact unwrap_of_none hnone

/-- Pieces without quotes and blanks are a lone name. -/
theorem segments?_alone {word : List Char} {ps : List Piece} {contents : List (List Char)}
    (h : segments? defines word ps = some contents)
    (hps : ∀ c ∈ text ps, c ≠ '"' ∧ isBlank c = false) :
    segments?.flush defines ((text ps).reverse ++ word) [] = some contents := by
  fun_induction segments? defines word ps with
  | case1 => exact h
  | case2 word c ps hc ih =>
    have := ih h fun d hd => hps d (List.mem_cons_of_mem _ hd)
    simpa [text, Piece.text] using this
  | case3 word c ps hc hb => simp [(hps c List.mem_cons_self).2] at hb
  | case4 => cases h
  | case5 => exact absurd rfl (hps '"' List.mem_cons_self).1
  | case6 => cases h

theorem concatSegments_singleton (content : List Char) : concatSegments [content] = content := by
  cases content with
  | nil => rfl
  | cons c s => rfl

/-- The operand is the text that the contents make. -/
theorem operand_of_segments? {ps : List Piece} {contents : List (List Char)}
    (h : segments? defines [] ps = some contents) (hne : contents ≠ []) :
    operand defines ps = .text (String.ofList (concatSegments contents)) := by
  have htrim := (segments?_trim ps).trans h
  rw [operand, unwrap_of_segments? htrim]
  generalize trim ps = ps at htrim
  have hps : ps.isEmpty = false := by
    cases ps with
    | nil => exact absurd (Option.some.inj htrim).symm hne
    | cons => rfl
  simp only [hps, Bool.false_eq_true, if_false]
  split
  · next hlocale =>
    -- A text in the form of a locale code is looked up as a whole.
    have hword : ∀ c ∈ text ps, isWordChar c = true := fun c hc =>
      isWordChar_of_mem hlocale (by rwa [shown, String.toList_ofList])
    have halone := segments?_alone htrim fun c hc =>
      ⟨fun hquote => not_quote_of_isWordChar (hword c hc) (.inl hquote),
        isBlank_of_isWordChar (hword c hc)⟩
    rw [List.append_nil] at halone
    by_cases htext : text ps = []
    · rw [htext] at halone
      exact absurd (Option.some.inj halone).symm hne
    · rw [flush_reverse htext] at halone
      obtain ⟨content, hcontent, rfl⟩ := Option.map_eq_some_iff.1 halone
      rw [shown, hcontent, concatSegments_singleton, String.ofList_toList]
  · rw [htrim]

/-! ## The bytes of a value -/

open CLiteral (Holds isComplete quoted value?)

theorem exists_values {contents : List (List Char)}
    (h : ∀ content ∈ contents, isComplete content = true) :
    ∃ values, List.Forall₂ Holds contents values := by
  induction contents with
  | nil => exact ⟨[], .nil⟩
  | cons content contents ih =>
    obtain ⟨bytes, hbytes⟩ := CLiteral.exists_holds (h content List.mem_cons_self)
    obtain ⟨values, hvalues⟩ := ih fun c hc => h c (List.mem_cons_of_mem _ hc)
    exact ⟨bytes :: values, .cons hbytes hvalues⟩

/-- A value of literals and string defines is read as a text, and the text keeps
the bytes of its segments: between double quotes it is a sequence of literals,
and its initialiser has the values of the segments behind each other. -/
theorem Spells.operand_keeps_bytes {text : List Char} {contents : List (List Char)}
    (h : Spells defines text contents) (hne : contents ≠ [])
    (hc : ∀ content ∈ contents, isComplete content = true) :
    ∃ stored values, (read text).2 = [] ∧ operand defines (read text).1 = .text stored ∧
      List.Forall₂ (fun content bytes => value? (quoted content) = some bytes) contents values ∧
      value? (quoted stored.toList) = some values.flatten ∧
      value? (initializerOf stored).toList = some values.flatten := by
  obtain ⟨htail, hsegments⟩ := h.segments?_read hc
  obtain ⟨values, hvalues⟩ := exists_values hc
  have hstored := CLiteral.value?_quoted (CLiteral.holds_concatSegments hvalues)
  refine ⟨String.ofList (concatSegments contents), values, htail,
    operand_of_segments? hsegments hne, hvalues.imp fun _ _ => CLiteral.value?_quoted, ?_, ?_⟩
  · rwa [String.toList_ofList]
  · rwa [initializerOf, String.toList_ofList, String.toList_ofList, CLiteral.value?_initializer]

/-- An open escape, an empty literal and a name, then a character that becomes an
open escape of its own. -/
theorem Spells.operand_keeps_bytes_sample :
    let defines : Defines := .ofList [("DIGIT", "7")]
    let text := "\"\\x4\" \"\" DIGIT \"°C\"".toList
    let contents := ["\\x4".toList, [], "7".toList, "°C".toList]
    Spells defines text contents ∧ contents ≠ [] ∧
      (∀ content ∈ contents, isComplete content = true) ∧
      ∃ stored values, (read text).2 = [] ∧ operand defines (read text).1 = .text stored ∧
        List.Forall₂ (fun content bytes => value? (quoted content) = some bytes) contents values ∧
        value? (quoted stored.toList) = some values.flatten ∧
        value? (initializerOf stored).toList = some values.flatten := by
  intro defines text contents
  have hdegree : Spells defines "\"°C\"".toList ["°C".toList] :=
    @Spells.literal _ "°C".toList _ _ .nil
  have hname : Spells defines "DIGIT \"°C\"".toList ["7".toList, "°C".toList] :=
    @Spells.name _ "DIGIT".toList _ _ _ (List.cons_ne_nil _ _) rfl rfl rfl (.blank rfl hdegree)
  have hempty : Spells defines "\"\" DIGIT \"°C\"".toList [[], "7".toList, "°C".toList] :=
    @Spells.literal _ [] _ _ (.blank rfl hname)
  have h : Spells defines text contents :=
    @Spells.literal _ "\\x4".toList _ _ (.blank rfl hempty)
  have hne : contents ≠ [] := List.cons_ne_nil _ _
  have hc : ∀ content ∈ contents, isComplete content = true := by decide
  exact ⟨h, hne, hc, h.operand_keeps_bytes hne hc⟩

end Argument

end FlashStrings
