import FlashStrings.Proofs.Invocation.Pieces
import FlashStrings.Proofs.Invocation.ReadBack
import FlashStrings.Proofs.Invocation.Segments
import FlashStrings.Proofs.Text.Spaced

/-!
# Argument texts from their tokens

The tokens of an argument text are an identifier, the literals of a fallback, and
clauses: locale codes with semicolons between them, a colon and literals.
`argumentTokens` lists them.  With any blanks around them they are read as
arguments (`readAll_of_spaced`): the value has the fallback, and the codes of the
clauses get their texts one after the other.

Reading goes through four splits, and each has a lemma that needs no more of the
pieces than that none of them is a mark of this split: `split_intercalate` at the
commas, `label?_append` at the colon, `localeCodes_of_spaced` at the semicolons and
`segments?_of_spaced` at the blanks.
-/

namespace FlashStrings

/-- The piece is read as it stands: a closed literal in double quotes or a
character that is no quote. -/
def Piece.IsClosed : Piece → Prop
  | .char c => ¬(c = '"' ∨ c = '\'')
  | .literal q body => q = '"' ∧ isQuotable body = true

namespace Argument

variable {defines : Defines} {ps : List Piece}

/-! ## Tokens -/

/-- A word as a token. -/
def wordToken (word : String) : List Piece := word.toList.map .char

/-- Literals as tokens, one for each. -/
def literalTokens (contents : List (List Char)) : List (List Piece) :=
  contents.map fun content => [.literal '"' content]

/-- Locale codes with semicolons between them. -/
def labelTokens (codes : List String) : List (List Piece) :=
  [[.char ';']].intercalate (codes.map fun code => [wordToken code])

/-- The codes, a colon and the literals of one text. -/
def clauseTokens (codes : List String) (contents : List (List Char)) : List (List Piece) :=
  labelTokens codes ++ [.char ':'] :: literalTokens contents

/-- The tokens of each argument behind the identifier: the fallback and the clauses. -/
def valueTokens (fallback : Option (List (List Char)))
    (clauses : List (List String × List (List Char))) : List (List (List Piece)) :=
  fallback.toList.map literalTokens ++ clauses.map fun clause => clauseTokens clause.1 clause.2

/-- The identifier and the other arguments, with commas between them. -/
def argumentTokens (identifier : String) (fallback : Option (List (List Char)))
    (clauses : List (List String × List (List Char))) : List (List Piece) :=
  [[.char ',']].intercalate ([wordToken identifier] :: valueTokens fallback clauses)

/-- The text that adjacent literals give. -/
def textOf (contents : List (List Char)) : String := String.ofList (concatSegments contents)

/-- What the clauses give to the locale codes, in the order of the codes. -/
def assignments (clauses : List (List String × List (List Char))) : List (String × String) :=
  clauses.flatMap fun clause => clause.1.map fun code => (code, textOf clause.2)

/-! ## Pieces of tokens -/

theorem isWordChar_of_mem_identifier {name : String} (h : isIdentifier name = true) {c : Char}
    (hc : c ∈ name.toList) : isWordChar c = true := by
  rw [isWordChar, isLocaleChar, isNameChar_of_mem_identifier h hc, Bool.true_or, Bool.true_or]

theorem ne_nil_of_isLocaleCode {code : String} (h : isLocaleCode code = true) :
    code.toList ≠ [] := by
  intro hnil
  rw [← String.ofList_toList (s := code), hnil] at h
  exact absurd h (by decide)

theorem ne_nil_of_isIdentifier {name : String} (h : isIdentifier name = true) :
    name.toList ≠ [] := by
  intro hnil
  rw [← String.ofList_toList (s := name), hnil] at h
  exact absurd h (by decide)

end Argument

/-- A piece of a token: a character of a word, one of the marks, or a literal. -/
def Piece.InToken (marks : List Char) : Piece → Prop
  | .char c => Argument.isWordChar c = true ∨ c ∈ marks
  | .literal q body => q = '"' ∧ isQuotable body = true

namespace Argument

/-- The tokens are made of words, marks and literals. -/
def MadeOf (marks : List Char) (tokens : List (List Piece)) : Prop :=
  ∀ token ∈ tokens, ∀ p ∈ token, p.InToken marks

/-- The marks of an argument text. -/
def allMarks : List Char := [';', ':', ',']

variable {marks : List Char} {tokens : List (List Piece)}

theorem MadeOf.mono {marks' : List Char} (h : MadeOf marks tokens) (hsub : marks ⊆ marks') :
    MadeOf marks' tokens := by
  intro token htoken p hp
  have hin := h token htoken p hp
  cases p with
  | char c => exact hin.imp_right fun hc => hsub hc
  | literal => exact hin

theorem MadeOf.append {tokens' : List (List Piece)} (h : MadeOf marks tokens)
    (h' : MadeOf marks tokens') : MadeOf marks (tokens ++ tokens') :=
  List.forall_mem_append.2 ⟨h, h'⟩

theorem MadeOf.mark {c : Char} (hc : c ∈ marks) : MadeOf marks [[.char c]] := by
  intro token htoken p hp
  obtain rfl := List.mem_singleton.1 htoken
  obtain rfl := List.mem_singleton.1 hp
  exact .inr hc

theorem MadeOf.intercalate {c : Char} (hc : c ∈ marks) {parts : List (List (List Piece))}
    (h : ∀ part ∈ parts, MadeOf marks part) : MadeOf marks ([[.char c]].intercalate parts) :=
  forall_mem_intercalate (MadeOf.mark hc) h

theorem madeOf_wordToken {word : String} (h : ∀ c ∈ word.toList, isWordChar c = true) :
    MadeOf marks [wordToken word] := by
  intro token htoken p hp
  obtain rfl := List.mem_singleton.1 htoken
  obtain ⟨c, hc, rfl⟩ := List.mem_map.1 hp
  exact .inl (h c hc)

theorem madeOf_literalTokens {contents : List (List Char)}
    (h : ∀ content ∈ contents, isQuotable content = true) :
    MadeOf marks (literalTokens contents) := by
  intro token htoken p hp
  obtain ⟨content, hcontent, rfl⟩ := List.mem_map.1 htoken
  obtain rfl := List.mem_singleton.1 hp
  exact ⟨rfl, h content hcontent⟩

theorem madeOf_labelTokens {codes : List String}
    (h : ∀ code ∈ codes, isLocaleCode code = true) : MadeOf [';'] (labelTokens codes) := by
  refine .intercalate (List.mem_singleton_self _) fun part hpart => ?_
  obtain ⟨code, hcode, rfl⟩ := List.mem_map.1 hpart
  exact madeOf_wordToken fun c hc => isWordChar_of_mem (h code hcode) hc

theorem madeOf_clauseTokens {codes : List String} {contents : List (List Char)}
    (hcodes : ∀ code ∈ codes, isLocaleCode code = true)
    (hcontents : ∀ content ∈ contents, isQuotable content = true) :
    MadeOf [';', ':'] (clauseTokens codes contents) := by
  have hlabel : MadeOf [';', ':'] (labelTokens codes) :=
    (madeOf_labelTokens hcodes).mono (by simp)
  have hcolon : MadeOf [';', ':'] [[.char ':']] := .mark (by simp)
  exact hlabel.append (hcolon.append (madeOf_literalTokens hcontents))

/-- A character that is no blank and in no token is not among spaced tokens. -/
theorem MadeOf.notMem (h : MadeOf marks tokens) (hps : Spaced Piece.isBlank tokens ps) {d : Char}
    (hd : isBlank d = false ∧ isWordChar d = false ∧ d ∉ marks) : .char d ∉ ps := by
  intro hmem
  obtain ⟨token, htoken, hmem⟩ := hps.exists_mem hmem hd.1
  rcases h token htoken _ hmem with hword | hmark
  · exact absurd (hd.2.1.symm.trans hword) (by decide)
  · exact hd.2.2 hmark

theorem MadeOf.solid (h : MadeOf allMarks tokens) : Spaced.Solid Piece.isBlank tokens := by
  intro token htoken p hp
  have hin := h token htoken p hp
  cases p with
  | char c =>
    rcases hin with hword | hmark
    · exact isBlank_of_isWordChar hword
    · have : ∀ d ∈ allMarks, isBlank d = false := by simp [allMarks, isBlank]
      exact this c hmark
  | literal => rfl

theorem MadeOf.isClosed (h : MadeOf allMarks tokens) (hps : Spaced Piece.isBlank tokens ps) :
    ∀ p ∈ ps, p.IsClosed := by
  intro p hp
  by_cases hblank : p.isBlank = true
  · cases p with
    | char c => exact not_quote_of_isBlank hblank
    | literal => cases hblank
  · obtain ⟨token, htoken, hp⟩ := hps.exists_mem hp (by simpa using hblank)
    have hin := h token htoken p hp
    cases p with
    | char c =>
      rcases hin with hword | hmark
      · exact not_quote_of_isWordChar hword
      · have : ∀ d ∈ allMarks, ¬(d = '"' ∨ d = '\'') := by simp [allMarks]
        exact this c hmark
    | literal => exact hin

/-! ## Reading -/

/-- Pieces that are closed are read off their text. -/
theorem read_text_append (h : ∀ p ∈ ps, p.IsClosed) (s : List Char) :
    read (text ps ++ s) = (ps ++ (read s).1, (read s).2) := by
  induction ps with
  | nil => rfl
  | cons p ps ih =>
    obtain ⟨hp, hps⟩ := List.forall_mem_cons.1 h
    cases p with
    | char c =>
      show read (c :: (text ps ++ s)) = _
      rw [read_char hp, ih hps]
      rfl
    | literal q body =>
      obtain ⟨rfl, hbody⟩ := hp
      have htext :
          text (.literal '"' body :: ps) ++ s = '"' :: (body ++ '"' :: (text ps ++ s)) := by
        simp [text, Piece.text]
      rw [htext, read_literal (quoted?_of_isQuotable hbody _), ih hps]
      rfl

/-- The text of spaced tokens is the text of spaced pieces. -/
theorem exists_pieces {s : List Char} (hs : Spaced isBlank (tokens.map text) s) :
    ∃ ps, s = text ps ∧ Spaced Piece.isBlank tokens ps := by
  have hblank : ∀ c, isBlank c = true → ∃ p : Piece, p.text = [c] ∧ p.isBlank = true :=
    fun c hc => ⟨.char c, rfl, hc⟩
  exact Spaced.exists_of_flatMap hblank hs

/-- Spaced tokens are read as spaced tokens. -/
theorem MadeOf.read_eq (h : MadeOf allMarks tokens) {s : List Char}
    (hs : Spaced isBlank (tokens.map text) s) :
    ∃ ps, read s = (ps, []) ∧ Spaced Piece.isBlank tokens ps := by
  obtain ⟨ps, rfl, hps⟩ := exists_pieces hs
  have hread := read_text_append (h.isClosed hps) []
  rw [List.append_nil, read, List.append_nil] at hread
  exact ⟨ps, hread, hps⟩

/-! ## Commas and colons -/

theorem split_append {part tail : List Piece} {parts : List (List Piece)}
    (hpart : ∀ d ∈ ['(', ')', ','], Piece.char d ∉ part)
    (htail : split true 0 tail = .ok ([] :: parts)) :
    split true 0 (part ++ tail) = .ok (part :: parts) := by
  induction part with
  | nil => exact htail
  | cons p part ih =>
    rw [List.cons_append, split, ih fun d hd hp => hpart d hd (List.mem_cons_of_mem _ hp)]
    · rfl
    all_goals
      rintro rfl
      exact hpart _ (by simp) List.mem_cons_self

/-- Parts without parentheses and commas are the arguments. -/
theorem split_intercalate {parts : List (List Piece)} (hne : parts ≠ [])
    (h : ∀ part ∈ parts, ∀ d ∈ ['(', ')', ','], Piece.char d ∉ part) :
    split true 0 ([.char ','].intercalate parts) = .ok parts := by
  induction parts with
  | nil => exact absurd rfl hne
  | cons part parts ih =>
    obtain ⟨hpart, hparts⟩ := List.forall_mem_cons.1 h
    cases parts with
    | nil =>
      rw [List.intercalate_singleton]
      have hlast := split_append hpart (show split true 0 [] = .ok [[]] from rfl)
      rwa [List.append_nil] at hlast
    | cons next parts =>
      rw [List.intercalate_cons_cons, List.append_assoc]
      refine split_append hpart ?_
      rw [List.singleton_append, split, if_pos rfl, ih (List.cons_ne_nil _ _) hparts]
      rfl

theorem label?_append {label : List Piece} (h : ∀ d ∈ ['(', ')', ':'], Piece.char d ∉ label)
    (rest : List Piece) : label? 0 (label ++ .char ':' :: rest) = some (label, rest) := by
  induction label with
  | nil => rfl
  | cons p label ih =>
    rw [List.cons_append, label?, ih fun d hd hp => h d hd (List.mem_cons_of_mem _ hp)]
    · rfl
    all_goals
      rintro rfl
      exact h _ (by simp) List.mem_cons_self

theorem label?_eq_none (h : ∀ d ∈ ['(', ')', ':'], Piece.char d ∉ ps) : label? 0 ps = none := by
  induction ps with
  | nil => rfl
  | cons p ps ih =>
    rw [label?, ih fun d hd hp => h d hd (List.mem_cons_of_mem _ hp)]
    · rfl
    all_goals
      rintro rfl
      exact h _ (by simp) List.mem_cons_self

/-! ## Labels -/

theorem text_wordToken (word : String) : text (wordToken word) = word.toList :=
  text_map_char word.toList

theorem text_labelTokens (codes : List String) :
    (labelTokens codes).map text = [[';']].intercalate (codes.map fun code => [code.toList]) := by
  rw [labelTokens, Spaced.map_intercalate, List.map_map]
  simp only [Function.comp_def, List.map_cons, List.map_nil, text_wordToken]
  rfl

/-- The text of spaced pieces is spaced. -/
theorem spaced_text {tokens : List (List Piece)} (h : Spaced Piece.isBlank tokens ps) :
    Spaced isBlank (tokens.map text) (text ps) := by
  refine h.flatMap Piece.text fun p hp c hc => ?_
  cases p with
  | char d =>
    obtain rfl := List.mem_singleton.1 hc
    exact hp
  | literal => cases hp

/-- A spaced locale code has no semicolon, and trimming finds it. -/
theorem code_of_spaced {code : String} {part : List Char} (hcode : isLocaleCode code = true)
    (h : Spaced isBlank [code.toList] part) :
    ';' ∉ part ∧ String.ofList (FlashStrings.trim part) = code := by
  have hsolid : ∀ c ∈ code.toList, isBlank c = false := fun c hc =>
    isBlank_of_isWordChar (isWordChar_of_mem hcode hc)
  constructor
  · intro hmem
    obtain ⟨token, htoken, hmem⟩ := h.exists_mem hmem (by decide)
    obtain rfl := List.mem_singleton.1 htoken
    exact absurd (isWordChar_of_mem hcode hmem) (by decide)
  · rw [FlashStrings.trim, h.trimWhile_singleton (ne_nil_of_isLocaleCode hcode) hsolid,
      String.ofList_toList]

/-- The codes are found in a label, whatever blanks stand around them. -/
theorem localeCodes_of_spaced {codes : List String} {label : List Piece} (hne : codes ≠ [])
    (hcodes : ∀ code ∈ codes, isLocaleCode code = true)
    (h : Spaced Piece.isBlank (labelTokens codes) label) :
    localeCodes (text label) = .ok codes := by
  have hchars := spaced_text h
  rw [text_labelTokens] at hchars
  obtain ⟨parts, hlabel, hparts⟩ := hchars.exists_intercalate (by simpa using hne)
  have hne' : parts ≠ [] := by
    rintro rfl
    cases codes with
    | nil => exact hne rfl
    | cons => cases hparts
  have hread : (∀ part ∈ parts, ';' ∉ part) ∧ (parts.mapM fun part =>
      let code := String.ofList (FlashStrings.trim part)
      if isLocaleCode code then Except.ok code
      else .error (ArgumentError.invalidLocaleCode code)) = .ok codes := by
    clear hlabel hne hne' h hchars
    induction codes generalizing parts with
    | nil =>
      cases hparts
      exact ⟨List.forall_mem_nil _, rfl⟩
    | cons code codes ih =>
      obtain ⟨hcode, hcodes⟩ := List.forall_mem_cons.1 hcodes
      cases hparts with
      | cons hpart hparts =>
        obtain ⟨hmark, htrim⟩ := code_of_spaced hcode hpart
        obtain ⟨hmarks, hrest⟩ := ih hcodes _ hparts
        refine ⟨List.forall_mem_cons.2 ⟨hmark, hmarks⟩, ?_⟩
        rw [List.mapM_cons, hrest]
        simp only [htrim, hcode, if_true]
        rfl
  rw [hlabel, localeCodes, cutAt_intercalate hne' hread.1]
  exact hread.2

/-! ## Operands -/

/-- Literals with blanks around them are read as their contents. -/
theorem segments?_of_spaced {contents : List (List Char)}
    (h : Spaced Piece.isBlank (literalTokens contents) ps) :
    segments? defines [] ps = some contents := by
  generalize htokens : literalTokens contents = tokens at h
  induction h generalizing contents with
  | nil =>
    obtain rfl := List.map_eq_nil_iff.1 htokens
    rfl
  | @blank p _ _ hp _ ih =>
    cases p with
    | char c => rw [segments?_skip hp, ih htokens]
    | literal => cases hp
  | token _ ih =>
    obtain ⟨content, contents, rfl, rfl, hrest⟩ := List.map_eq_cons_iff.1 htokens
    rw [List.singleton_append, segments?, ih hrest]
    rfl

theorem operand_of_spaced {contents : List (List Char)} (hne : contents ≠ [])
    (h : Spaced Piece.isBlank (literalTokens contents) ps) :
    operand defines ps = .text (textOf contents) :=
  operand_of_segments? (segments?_of_spaced h) hne

/-! ## Values -/

/-- Each pair gives its text to its code, the first one first. -/
def assignAll (value : Value) (pairs : List (String × String)) : Except ArgumentError Value :=
  pairs.foldlM (fun v pair => v.assign pair.1 pair.2) value

theorem assignAll_append (value : Value) (pairs rest : List (String × String)) :
    assignAll value (pairs ++ rest) = assignAll value pairs >>= fun v => assignAll v rest :=
  List.foldlM_append

/-- A clause of an argument text: locale codes and the contents of literals. -/
structure IsClause (codes : List String) (contents : List (List Char)) : Prop where
  codes_ne_nil : codes ≠ []
  isLocaleCode : ∀ code ∈ codes, isLocaleCode code = true
  contents_ne_nil : contents ≠ []
  isQuotable : ∀ content ∈ contents, isQuotable content = true

/-- A clause gives its text to its codes. -/
theorem readValues_clause {codes : List String} {contents : List (List Char)}
    (hclause : IsClause codes contents) {first : Bool} {value : Value} {arg : List Piece}
    {args : List (List Piece)} (h : Spaced Piece.isBlank (clauseTokens codes contents) arg) :
    readValues defines first value [] (arg :: args) =
      assignAll value (codes.map fun code => (code, textOf contents)) >>= fun v =>
        readValues defines false v [] args := by
  obtain ⟨front, rest, rfl, hfront, hrest⟩ := h.exists_append
  obtain ⟨blanks, literals, rfl, hblanks, hliterals⟩ := hrest.exists_cons
  have hlabel : Spaced Piece.isBlank (labelTokens codes) (front ++ blanks) := by
    simpa using hfront.append hblanks
  have hmarks : ∀ d ∈ ['(', ')', ':'], isBlank d = false ∧ isWordChar d = false ∧ d ∉ [';'] := by
    simp [isBlank, isWordChar, isLocaleChar, isNameChar]
  have hlabel? := label?_append
    (fun d hd => (madeOf_labelTokens hclause.isLocaleCode).notMem hlabel (hmarks d hd)) literals
  have hcodes := localeCodes_of_spaced hclause.codes_ne_nil hclause.isLocaleCode hlabel
  have harg : front ++ (blanks ++ [.char ':'] ++ literals) =
      (front ++ blanks) ++ .char ':' :: literals := by simp
  rw [harg, readValues]
  have hempty : ((front ++ blanks) ++ .char ':' :: literals).isEmpty = false := by simp
  simp only [hempty, hlabel?, hcodes, operand_of_spaced hclause.contents_ne_nil hliterals,
    List.nil_append, Bool.false_eq_true, if_false, assignAll, List.foldlM_map]
  rfl

theorem readValues_clauses {clauses : List (List String × List (List Char))}
    (hclauses : ∀ clause ∈ clauses, IsClause clause.1 clause.2) {first : Bool} {value : Value}
    {args : List (List Piece)}
    (h : List.Forall₂ (fun clause arg =>
      Spaced Piece.isBlank (clauseTokens clause.1 clause.2) arg) clauses args) :
    readValues defines first value [] args = assignAll value (assignments clauses) := by
  induction h generalizing first value with
  | nil => rfl
  | @cons clause arg clauses args harg _ ih =>
    obtain ⟨hclause, hclauses⟩ := List.forall_mem_cons.1 hclauses
    rw [readValues_clause hclause harg, assignments, List.flatMap_cons, assignAll_append]
    simp only [ih hclauses]
    rfl

/-- The fallback stands before the clauses. -/
theorem readValues_of_spaced {fallback : Option (List (List Char))}
    {clauses : List (List String × List (List Char))}
    (hfallback : ∀ contents ∈ fallback, contents ≠ [] ∧
      ∀ content ∈ contents, isQuotable content = true)
    (hclauses : ∀ clause ∈ clauses, IsClause clause.1 clause.2) {args : List (List Piece)}
    (h : List.Forall₂ (Spaced Piece.isBlank) (valueTokens fallback clauses) args) :
    readValues defines true {} [] args =
      assignAll { fallback := fallback.map textOf } (assignments clauses) := by
  cases fallback with
  | none => exact readValues_clauses hclauses (List.forall₂_map_left_iff.1 h)
  | some contents =>
    obtain ⟨hne, hquotable⟩ := hfallback contents rfl
    cases h with
    | @cons _ arg _ args harg hargs =>
      have hmarks : ∀ d ∈ ['(', ')', ':'], isBlank d = false ∧ isWordChar d = false ∧
          d ∉ ([] : List Char) := by
        simp [isBlank, isWordChar, isLocaleChar, isNameChar]
      have hnone := label?_eq_none fun d hd =>
        (madeOf_literalTokens hquotable).notMem harg (hmarks d hd)
      obtain ⟨content, more, rfl⟩ := List.exists_cons_of_ne_nil hne
      have hmem := harg.mem_of_mem List.mem_cons_self (List.mem_singleton_self _)
      have hempty : arg.isEmpty = false := by
        rw [List.isEmpty_eq_false_iff]
        exact List.ne_nil_of_mem hmem
      rw [readValues]
      simp only [hempty, hnone, operand_of_spaced hne harg, Bool.false_eq_true, if_false, if_true]
      exact readValues_clauses hclauses (List.forall₂_map_left_iff.1 hargs)

/-- No argument is empty, and none has a comma or a parenthesis. -/
theorem madeOf_valueTokens {fallback : Option (List (List Char))}
    {clauses : List (List String × List (List Char))}
    (hfallback : ∀ contents ∈ fallback, contents ≠ [] ∧
      ∀ content ∈ contents, isQuotable content = true)
    (hclauses : ∀ clause ∈ clauses, IsClause clause.1 clause.2) {part : List (List Piece)}
    (hpart : part ∈ valueTokens fallback clauses) :
    MadeOf [';', ':'] part ∧ ∃ token ∈ part, token ≠ [] := by
  rcases List.mem_append.1 hpart with hpart | hpart
  · obtain ⟨contents, hcontents, rfl⟩ := List.mem_map.1 hpart
    obtain ⟨hne, hquotable⟩ := hfallback contents (by simpa using hcontents)
    obtain ⟨content, more, rfl⟩ := List.exists_cons_of_ne_nil hne
    exact ⟨madeOf_literalTokens hquotable, _, List.mem_cons_self, List.cons_ne_nil _ _⟩
  · obtain ⟨clause, hclause, rfl⟩ := List.mem_map.1 hpart
    have h := hclauses clause hclause
    exact ⟨madeOf_clauseTokens h.isLocaleCode h.isQuotable, [.char ':'],
      List.mem_append_right _ List.mem_cons_self, List.cons_ne_nil _ _⟩

theorem madeOf_argumentTokens {identifier : String} {fallback : Option (List (List Char))}
    {clauses : List (List String × List (List Char))} (hidentifier : isIdentifier identifier = true)
    (hfallback : ∀ contents ∈ fallback, contents ≠ [] ∧
      ∀ content ∈ contents, isQuotable content = true)
    (hclauses : ∀ clause ∈ clauses, IsClause clause.1 clause.2) :
    MadeOf allMarks (argumentTokens identifier fallback clauses) := by
  refine .intercalate (by decide) (List.forall_mem_cons.2 ⟨?_, fun part hpart => ?_⟩)
  · exact madeOf_wordToken fun c hc => isWordChar_of_mem_identifier hidentifier hc
  · exact (madeOf_valueTokens hfallback hclauses hpart).1.mono (by decide)

/-- Spaced tokens are read as the arguments that they list. -/
theorem readAll_of_spaced (defines : Defines) {identifier : String}
    {fallback : Option (List (List Char))} {clauses : List (List String × List (List Char))}
    (hidentifier : isIdentifier identifier = true)
    (hfallback : ∀ contents ∈ fallback, contents ≠ [] ∧
      ∀ content ∈ contents, isQuotable content = true)
    (hclauses : ∀ clause ∈ clauses, IsClause clause.1 clause.2)
    (h : Spaced Piece.isBlank (argumentTokens identifier fallback clauses) ps) :
    readAll defines true ps =
      (assignAll { fallback := fallback.map textOf } (assignments clauses)).map fun value =>
        ⟨identifier, value.normalizeWildcard⟩ := by
  obtain ⟨parts, rfl, hparts⟩ := h.exists_intercalate (List.cons_ne_nil _ _)
  cases hparts with
  | @cons _ front _ args hfront hargs =>
    have hword : MadeOf [';', ':'] [wordToken identifier] :=
      madeOf_wordToken fun c hc => isWordChar_of_mem_identifier hidentifier hc
    have hsub : [';', ':'] ⊆ allMarks := by decide
    have hvalue := (List.forall₂_and_left _ _).2
      ⟨fun part hpart => madeOf_valueTokens hfallback hclauses hpart, hargs⟩
    have hmarks : ∀ d ∈ ['(', ')', ','],
        isBlank d = false ∧ isWordChar d = false ∧ d ∉ [';', ':'] := by
      simp [isBlank, isWordChar, isLocaleChar, isNameChar]
    have hsplit : split true 0 ([.char ','].intercalate (front :: args)) = .ok (front :: args) := by
      refine split_intercalate (List.cons_ne_nil _ _) (List.forall_mem_cons.2 ⟨?_, ?_⟩)
      · exact fun d hd => hword.notMem hfront (hmarks d hd)
      · exact forall_of_forall₂ hvalue fun part arg h d hd => h.1.1.notMem h.2 (hmarks d hd)
    have htrim : List.Forall₂ (Spaced Piece.isBlank) (valueTokens fallback clauses)
        (args.map trim) :=
      List.forall₂_map_right_iff.2 (hvalue.imp fun part arg h =>
        h.2.trimWhile (h.1.1.mono hsub).solid)
    have hfilled : ∀ arg ∈ args.map trim, arg ≠ [] := by
      refine forall_of_forall₂ ((List.forall₂_and_left _ _).2 ⟨fun part hpart =>
        (madeOf_valueTokens hfallback hclauses hpart).2, htrim⟩) fun part arg h => ?_
      obtain ⟨⟨token, htoken, hne⟩, hspaced⟩ := h
      obtain ⟨p, hp⟩ := List.exists_mem_of_ne_nil _ hne
      exact List.ne_nil_of_mem (hspaced.mem_of_mem htoken hp)
    have hname : trim front = wordToken identifier := by
      refine hfront.trimWhile_singleton ?_ fun p hp => ?_
      · simpa [wordToken] using ne_nil_of_isIdentifier hidentifier
      · exact (hword.mono hsub).solid _ (List.mem_singleton_self _) p hp
    have hvalues : readValue defines (args.map trim) =
        (readValues defines true {} [] (args.map trim)).map Value.normalizeWildcard := by
      rw [readValue]
      intro hempty
      exact hfilled [] (hempty ▸ List.mem_singleton_self _) rfl
    have hshown : shown (wordToken identifier) = identifier := by
      rw [shown, text_wordToken, String.ofList_toList]
    have hne := isEmpty_of_isIdentifier hidentifier
    rw [readAll, hsplit]
    show (if (shown (trim front)).isEmpty then _ else if !isIdentifier (shown (trim front)) then _
      else (readValue defines (args.map trim)).map (Invocation.mk (shown (trim front)))) = _
    rw [hname, hshown, hne, hidentifier, hvalues, readValues_of_spaced hfallback hclauses htrim]
    cases assignAll { fallback := fallback.map textOf } (assignments clauses) with
    | error e => rfl
    | ok value => rfl

end Argument

end FlashStrings
