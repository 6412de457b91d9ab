import FlashStrings.Proofs.Invocation.Chunks
import FlashStrings.Proofs.Invocation.Clauses
import FlashStrings.Proofs.Source.Continuation
import FlashStrings.Proofs.Source.States
import FlashStrings.Query

/-!
# Pasted members

A query can show an entry as an invocation to paste into a source.  Such a line is
scanned as one record with the value of the entry (`Fit.scan_pasted`), for
every entry that is fit to be pasted (`Entry.Fit`): it has a valid identifier and a
fallback, its texts can stand between quotes, and its value is in normal form, so
that the parser folds no variant into the fallback.

The line is made of tokens with blanks between them (`spaced_memberText`), and what
such tokens are read as is known from the grammar of argument texts.
-/

namespace FlashStrings

open CLiteral (quoted)

/-- The wildcard stands only beside a fallback with another text. -/
def Value.IsNormal (v : Value) : Prop :=
  ∀ text, v.locales.get? wildcardLocale = some text →
    ∃ fallback, v.fallback = some fallback ∧ fallback ≠ text

theorem Value.IsNormal.normalizeWildcard_eq {v : Value} (h : v.IsNormal) :
    v.normalizeWildcard = v := by
  rw [normalizeWildcard]
  cases hwild : v.locales.get? wildcardLocale with
  | none => rfl
  | some text =>
    obtain ⟨fallback, hfallback, hne⟩ := h text hwild
    rw [hfallback]
    exact if_neg hne

/-- The identifier and the value can be written as an invocation. -/
structure Writable (identifier : String) (value : Value) : Prop where
  isIdentifier : isIdentifier identifier = true
  /-- The texts can stand between quotes, and the locale codes are valid. -/
  each : value.Each Pastable
  isNormal : value.IsNormal

/-- The entry can be written as an invocation that gives it all it needs. -/
structure Entry.Fit (e : Entry) : Prop where
  writable : Writable e.identifier e.value
  isResolved : e.isResolved = true

namespace Argument

/-! ## Locales as clauses -/

/-- The clauses give the texts of the pairs, each to its code. -/
def ClausesOf (pairs : List (String × String))
    (clauses : List (List String × List (List Char))) : Prop :=
  List.Forall₂ (fun pair clause => clause.1 = [pair.1] ∧ Chunks clause.2 pair.2.toList)
    pairs clauses

theorem exists_clausesOf {pairs : List (String × String)}
    (h : ∀ pair ∈ pairs, Pastable pair.2) : ∃ clauses, ClausesOf pairs clauses := by
  induction pairs with
  | nil => exact ⟨[], .nil⟩
  | cons pair pairs ih =>
    obtain ⟨⟨contents, hcontents⟩, hpairs⟩ := List.forall_mem_cons.1 h
    obtain ⟨clauses, hclauses⟩ := ih hpairs
    exact ⟨([pair.1], contents) :: clauses, .cons ⟨rfl, hcontents⟩ hclauses⟩

variable {pairs : List (String × String)} {clauses : List (List String × List (List Char))}

theorem textOf_eq {contents : List (List Char)} {text : String}
    (h : Chunks contents text.toList) : textOf contents = text := by
  rw [textOf, h.concatSegments_eq, String.ofList_toList]

theorem ClausesOf.assignments_eq (h : ClausesOf pairs clauses) : assignments clauses = pairs := by
  induction h with
  | nil => rfl
  | @cons pair clause pairs clauses hclause _ ih =>
    obtain ⟨hcodes, hcontents⟩ := hclause
    rw [assignments, List.flatMap_cons, ← assignments, ih, hcodes, List.map_singleton,
      textOf_eq hcontents]
    rfl

theorem ClausesOf.isClause (h : ClausesOf pairs clauses)
    (hcodes : ∀ pair ∈ pairs, isLocaleCode pair.1 = true) :
    ∀ clause ∈ clauses, IsClause clause.1 clause.2 := by
  induction h with
  | nil => exact List.forall_mem_nil _
  | @cons pair clause _ _ hclause _ ih =>
    obtain ⟨hpair, hpairs⟩ := List.forall_mem_cons.1 hcodes
    obtain ⟨hcode, hcontents⟩ := hclause
    refine List.forall_mem_cons.2 ⟨?_, ih hpairs⟩
    rw [hcode]
    exact {
      codes_ne_nil := List.cons_ne_nil _ _
      isLocaleCode := List.forall_mem_singleton.2 hpair
      contents_ne_nil := hcontents.ne_nil
      isQuotable := hcontents.isQuotable }

/-! ## The line -/

theorem text_literalTokens (contents : List (List Char)) :
    (literalTokens contents).map text = contents.map quoted := by
  rw [literalTokens, List.map_map]
  refine List.map_congr_left fun content _ => ?_
  simp [text, Piece.text, quoted]

/-- The identifier, the fallback and the clauses as they are written. -/
def memberTexts (identifier : String) (fallback : String) (pairs : List (String × String)) :
    List (List Char) :=
  identifier.toList :: quoted fallback.toList ::
    pairs.map fun pair => pair.1.toList ++ ':' :: ' ' :: quoted pair.2.toList

theorem spaced_clauseText {code : String} {contents : List (List Char)} {content : List Char}
    (h : Chunks contents content) :
    Spaced isBlank ((clauseTokens [code] contents).map text)
      (code.toList ++ ':' :: ' ' :: quoted content) := by
  rw [clauseTokens, List.map_append, text_labelTokens, List.map_singleton,
    List.intercalate_singleton, List.map_cons, text_literalTokens]
  exact .token (@Spaced.token _ _ [':'] _ _ (.blank rfl h.spaced))

theorem spaced_memberText (identifier : String) {fallback : String}
    {contents : List (List Char)} (hfallback : Chunks contents fallback.toList)
    (h : ClausesOf pairs clauses) :
    Spaced isBlank ((argumentTokens identifier (some contents) clauses).map text)
      (", ".toList.intercalate (memberTexts identifier fallback pairs)) := by
  rw [argumentTokens, Spaced.map_intercalate]
  refine Spaced.intercalate (@Spaced.token _ _ [','] _ _ (.blank rfl .nil)) (.cons ?_ (.cons ?_ ?_))
  · rw [List.map_singleton, text_wordToken]
    exact .single isBlank identifier.toList
  · rw [text_literalTokens]
    exact hfallback.spaced
  · show List.Forall₂ _ ((clauses.map fun clause => clauseTokens clause.1 clause.2).map _) _
    rw [List.forall₂_map_left_iff, List.forall₂_map_left_iff, List.forall₂_map_right_iff]
    refine List.Forall₂.flip (h.imp fun pair clause hclause => ?_)
    obtain ⟨hcode, hcontents⟩ := hclause
    show Spaced isBlank ((clauseTokens clause.1 clause.2).map text) _
    rw [hcode]
    exact spaced_clauseText hcontents

/-- Tokens that are read as they stand are collected from the code as they stand. -/
theorem lexed_text {ps : List Piece} (hclosed : ∀ p ∈ ps, p.IsClosed)
    (hmarks : ∀ d ∈ ['(', ')', '/'], Piece.char d ∉ ps) (depth : Nat) :
    Lexed depth (text ps) ps depth := by
  induction ps with
  | nil => exact .nil
  | cons p ps ih =>
    obtain ⟨hp, hps⟩ := List.forall_mem_cons.1 hclosed
    have hrest := ih hps fun d hd hmem => hmarks d hd (List.mem_cons_of_mem _ hmem)
    cases p with
    | char c =>
      refine .char (fun hc => ?_) hrest
      simp only [List.mem_cons, List.not_mem_nil, or_false] at hc
      rcases hc with rfl | rfl | rfl | rfl | rfl
      · exact hmarks '(' (by simp) List.mem_cons_self
      · exact hmarks ')' (by simp) List.mem_cons_self
      · exact hp (.inl rfl)
      · exact hp (.inr rfl)
      · exact hmarks '/' (by simp) List.mem_cons_self
    | literal q body =>
      obtain ⟨rfl, hbody⟩ := hp
      have htext : text (.literal '"' body :: ps) = '"' :: (body ++ '"' :: text ps) := by
        simp [text, Piece.text]
      rw [htext]
      exact .literal (.inl rfl) (quoted?_of_isQuotable hbody []) hrest

end Argument

/-! ## The record -/

namespace Scan

/-- A line that is one invocation is scanned in one step. -/
theorem scan_line {settings : ScanSettings} {u : List Char} {ps : List Piece}
    {read : Invocation} (hu : Argument.Lexed 0 u ps 0)
    (hread : readArguments settings .autoInit ps = .ok read) :
    scan settings (String.ofList ("AUTO_STRING_DEF(".toList ++ u ++ [')'])) =
      [.record { identifier := read.identifier, kind := .autoInit, value := read.value,
                 location := ⟨settings.file, 1, 1⟩ }] := by
  let line := "AUTO_STRING_DEF(".toList ++ u ++ [')']
  have hinitial : initial (String.ofList line) = { cursor := .start line } := by
    rw [initial, withoutMark, String.toList_ofList]
    rfl
  have hinvokes : Invokes (Cursor.start line).after .autoInit ps (15 + 0 + u.length + 2) := by
    have hkind : macroKind? "AUTO_STRING_DEF" = some .autoInit := by decide
    have h : Invokes ("AUTO_STRING_DEF".toList ++ ([] ++ '(' :: (u ++ ')' :: []))) .autoInit ps _ :=
      .intro hkind (trivia_parenthesis _) (hu.extract_eq [])
    have htext : (Cursor.start line).after =
        "AUTO_STRING_DEF".toList ++ ([] ++ '(' :: (u ++ ')' :: [])) := by
      simp [Cursor.start, line]
    rwa [htext]
  have hnext := State.next?_of_read (σ := { cursor := .start line }) hinvokes
    (fun h => Nat.not_lt_zero _ h.1) hread
  have hend : ((Cursor.start line).advance (15 + 0 + u.length + 2)).after = [] := by
    refine List.drop_eq_nil_of_le ?_
    show line.length ≤ 15 + 0 + u.length + 2
    have hname : "AUTO_STRING_DEF(".toList.length = 16 := rfl
    simp only [line, List.length_append, List.length_singleton, hname]
    omega
  rw [← State.outcome_initial, hinitial, State.outcome_of_next? hnext]
  exact run_of_after_nil hend

end Scan

/-- Giving its texts to the codes one after the other makes the value again. -/
theorem Value.assignAll_entries (v : Value) :
    Argument.assignAll { fallback := v.fallback } v.locales.entries = .ok v := by
  have hempty : Gives { fallback := v.fallback } [] := fun code text => ⟨nofun, nofun⟩
  have hself : v.Gives v.locales.entries := fun code text => SortedMap.get?_eq_some_iff
  rcases hempty.assignAll v.locales.entries with ⟨w, hw, hfallback, hgives⟩ |
    ⟨before, code, first, text, after, hentries, -, hfirst, hne, -⟩
  · have hsame : w = v := ext_at? fun key => by
      cases key with
      | none => exact hfallback
      | some code => exact Option.ext fun text => (hgives code text).trans (hself code text).symm
    rw [hw, hsame]
  · have hmem : (code, first) ∈ v.locales.entries := hentries ▸ List.mem_append_left _ hfirst
    have hmem' : (code, text) ∈ v.locales.entries :=
      hentries ▸ List.mem_append_right _ List.mem_cons_self
    exact absurd (hself.consistent_pairs code first text hmem hmem') hne

namespace Entry

variable {e : Entry}

theorem toList_memberInvocation {fallback : String} (h : e.value.fallback = some fallback) :
    (Report.memberInvocation e).toList = "AUTO_STRING_DEF(".toList ++
      ", ".toList.intercalate
        (Argument.memberTexts e.identifier fallback e.value.locales.entries) ++ [')'] := by
  have hlocale (pair : String × String) :
      (s!"{pair.1}: \"{pair.2}\"").toList =
        pair.1.toList ++ ':' :: ' ' :: quoted pair.2.toList := by
    simp [toString, quoted]
  have hfallback : (s!"\"{fallback}\"").toList = quoted fallback.toList := by
    simp [toString, quoted]
  simp only [Report.memberInvocation, h, String.toList_append, String.toList_intercalate,
    Argument.memberTexts, Option.toList_some, List.map_append, List.map_cons, List.map_nil,
    List.map_map, Function.comp_def, hlocale, hfallback]
  rfl

/-- An entry that is fit to be pasted is scanned as it is. -/
theorem Fit.scan_pasted (h : e.Fit) (file : String) :
    scan ⟨file, ∅⟩ (Report.memberInvocation e) =
      [.record { identifier := e.identifier, kind := .autoInit, value := e.value,
                 location := ⟨file, 1, 1⟩ }] := by
  obtain ⟨t, ht⟩ := Option.isSome_iff_exists.1 h.isResolved
  have hfallback : e.value.fallback = some t.text := by rw [value, ht]; rfl
  obtain ⟨contents, hcontents⟩ := h.writable.each.texts none t.text hfallback
  have hpairs : ∀ pair ∈ e.value.locales.entries,
      Pastable pair.2 ∧ isLocaleCode pair.1 = true := fun pair hpair => by
    have hat : e.value.at? (some pair.1) = some pair.2 := SortedMap.get?_eq_some_iff.2 hpair
    exact ⟨h.writable.each.texts _ _ hat, h.writable.each.codes _ _ hat⟩
  obtain ⟨clauses, hclauses⟩ := Argument.exists_clausesOf fun pair hpair => (hpairs pair hpair).1
  have hclosed : ∀ cs ∈ some contents, cs ≠ [] ∧ ∀ c ∈ cs, isQuotable c = true := by
    intro cs hcs
    obtain rfl := Option.some.inj hcs
    exact ⟨hcontents.ne_nil, hcontents.isQuotable⟩
  have hisClause := hclauses.isClause fun pair hpair => (hpairs pair hpair).2
  have hmade := Argument.madeOf_argumentTokens h.writable.isIdentifier hclosed hisClause
  obtain ⟨ps, htext, hps⟩ := Argument.exists_pieces
    (Argument.spaced_memberText e.identifier hcontents hclauses)
  have hmarks : ∀ d ∈ ['(', ')', '/'],
      isBlank d = false ∧ Argument.isWordChar d = false ∧ d ∉ Argument.allMarks := by
    simp [isBlank, Argument.isWordChar, isLocaleChar, isNameChar, Argument.allMarks]
  have hlexed := Argument.lexed_text (hmade.isClosed hps)
    (fun d hd => hmade.notMem hps (hmarks d hd)) 0
  have hall :=
    Argument.readAll_of_spaced ∅ h.writable.isIdentifier hclosed hisClause hps
  have hvalue : Argument.assignAll { fallback := (some contents).map Argument.textOf }
      (Argument.assignments clauses) = .ok e.value := by
    rw [hclauses.assignments_eq, Option.map_some, Argument.textOf_eq hcontents, ← hfallback]
    exact e.value.assignAll_entries
  have hread : Scan.readArguments ⟨file, ∅⟩ .autoInit ps = .ok ⟨e.identifier, e.value⟩ := by
    rw [hvalue, Except.map, h.writable.isNormal.normalizeWildcard_eq] at hall
    rw [Scan.readArguments, hall]
    show (if Scan.needsText .autoInit && e.value.fallback.isNone then _ else _) = _
    rw [hfallback]
    rfl
  have hline : Report.memberInvocation e =
      String.ofList ("AUTO_STRING_DEF(".toList ++ Argument.text ps ++ [')']) := by
    rw [← htext, ← toList_memberInvocation hfallback, String.ofList_toList]
  rw [hline]
  exact Scan.scan_line hlexed hread

end Entry

end FlashStrings
