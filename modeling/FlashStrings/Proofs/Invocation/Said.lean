import FlashStrings.Proofs.Invocation.Clauses
import FlashStrings.Proofs.Invocation.Grouping
import FlashStrings.Proofs.Merge.Keys

/-!
# What arguments say

Arguments *say* a fallback or none, and pairs of a locale code and its text (`Says`).
Whatever is accepted says something (`exists_said`), and the value is what was said, in
normal form (`Says.parseArguments_eq`).

A *part* of what is said leaves out the fallback or some of the pairs.  It is accepted
as well.  Its texts are then among those of the whole, under the same keys
(`Says.below_of_part`), with one exception: the normal form makes the text of the
wildcard the fallback where there is none.  A part that has the wildcard and leaves out
the fallback beside it gives another fallback than the whole
(`Said.LosesFallback`).
-/

namespace FlashStrings

/-- What the arguments of an invocation say about its identifier. -/
structure Said where
  fallback : Option String := none
  /-- The text of each code, in the order of the arguments. -/
  pairs : List (String × String) := []
  deriving DecidableEq, Repr

/-- Some of what is said. -/
structure Said.PartOf (part whole : Said) : Prop where
  fallback : part.fallback = none ∨ part.fallback = whole.fallback
  pairs : part.pairs ⊆ whole.pairs

/-- The fallback is left out and the wildcard is not, which stands beside it with
another text. -/
def Said.LosesFallback (part whole : Said) : Prop :=
  part.fallback = none ∧ ∃ text other, whole.fallback = some text ∧
    (wildcardLocale, other) ∈ part.pairs ∧ text ≠ other

namespace Argument

variable {defines : Defines} {ps : List Piece} {args : List (List Piece)} {pending : List String}
  {pairs : List (String × String)} {said : Said}

/-! ## Arguments and pairs -/

/-- The arguments are bare codes and labelled texts, and give these pairs.  The `pending`
codes wait for the next label. -/
inductive Clauses (defines : Defines) :
    List String → List (List Piece) → List (String × String) → Prop where
  /-- At the end no code waits. -/
  | nil : Clauses defines [] [] []
  | code {pending : List String} {arg : List Piece} {args : List (List Piece)}
    {pairs : List (String × String)} {code : String} :
    label? 0 arg = none → operand defines arg = .word code →
    Clauses defines (pending ++ [code]) args pairs → Clauses defines pending (arg :: args) pairs
  | labelled {pending : List String} {arg label rest : List Piece} {args : List (List Piece)}
    {pairs : List (String × String)} {codes : List String} {content : String} :
    label? 0 arg = some (label, rest) → localeCodes (text label) = .ok codes →
    operand defines rest = .text content → Clauses defines [] args pairs →
    Clauses defines pending (arg :: args) ((pending ++ codes).map (·, content) ++ pairs)

/-- What the arguments behind the identifier say. -/
inductive ValueSays (defines : Defines) : List (List Piece) → Said → Prop where
  /-- A single empty argument says nothing. -/
  | nothing : ValueSays defines [[]] {}
  | clauses {args : List (List Piece)} {pairs : List (String × String)} :
    (∀ arg ∈ args.head?, label? 0 arg ≠ none) → Clauses defines [] args pairs →
    ValueSays defines args { pairs }
  | fallback {arg : List Piece} {args : List (List Piece)} {pairs : List (String × String)}
    {content : String} :
    label? 0 arg = none → operand defines arg = .text content → Clauses defines [] args pairs →
    ValueSays defines (arg :: args) { fallback := some content, pairs }

theorem operand_nil : operand defines [] = .nothing := by
  have hnil : unwrap (trim []) = [] := by rw [unwrap]; rfl
  rw [operand, hnil]
  rfl

/-- Bare codes and labelled texts give their pairs, one after the other. -/
theorem Clauses.readValues_eq (h : Clauses defines pending args pairs) (first : Bool)
    (hfirst : first = true → ∀ arg ∈ args.head?, label? 0 arg ≠ none) (value : Value) :
    readValues defines first value pending args = assignAll value pairs := by
  induction h generalizing first value with
  | nil => rfl
  | @code pending arg args pairs code hlabel hoperand _ ih =>
    have hlater : first = false := by
      cases first with
      | false => rfl
      | true => exact absurd hlabel (hfirst rfl arg rfl)
    have hne : arg.isEmpty = false := by
      rw [List.isEmpty_eq_false_iff]
      rintro rfl
      cases operand_nil.symm.trans hoperand
    rw [readValues]
    simp only [hne, hlabel, hoperand, hlater, Bool.false_eq_true, if_false]
    exact ih false (absurd · Bool.false_ne_true) value
  | @labelled pending arg label rest args pairs codes content hlabel hcodes hoperand _ ih =>
    have hne : arg.isEmpty = false := by
      rw [List.isEmpty_eq_false_iff]
      rintro rfl
      cases hlabel
    rw [readValues, assignAll_append, assignAll, List.foldlM_map]
    simp only [hne, hlabel, hcodes, hoperand, Bool.false_eq_true, if_false]
    show (_ >>= fun v => readValues defines false v [] args) = _
    simp only [ih false (absurd · Bool.false_ne_true)]

/-- Arguments that are accepted behind the first one are bare codes and labelled texts. -/
theorem exists_clauses {value result : Value}
    (h : readValues defines false value pending args = .ok result) :
    ∃ pairs, Clauses defines pending args pairs := by
  induction args generalizing value pending with
  | nil =>
    rw [readValues] at h
    split at h
    · next hempty =>
      obtain rfl := List.isEmpty_iff.1 hempty
      exact ⟨[], .nil⟩
    · cases h
  | cons arg args ih =>
    rcases readValues_cons h with ⟨label, rest, codes, content, value', hlabel, hcodes, hoperand,
      -, h⟩ | ⟨_, -, -, hfirst, -⟩ | ⟨code, hlabel, hoperand, -, h⟩
    · obtain ⟨pairs, hpairs⟩ := ih h
      exact ⟨_, .labelled hlabel hcodes hoperand hpairs⟩
    · cases hfirst
    · obtain ⟨pairs, hpairs⟩ := ih h
      exact ⟨pairs, .code hlabel hoperand hpairs⟩

/-- The value is what the arguments say, in normal form. -/
theorem ValueSays.readValue_eq (h : ValueSays defines args said) :
    readValue defines args =
      (assignAll { fallback := said.fallback } said.pairs).map Value.normalizeWildcard := by
  cases h with
  | nothing => rfl
  | clauses hfirst hclauses =>
    rw [← hclauses.readValues_eq true fun _ => hfirst]
    unfold readValue
    split
    · exact absurd rfl (hfirst [] rfl)
    · rfl
  | @fallback arg args pairs content hlabel hoperand hclauses =>
    have hne : arg ≠ [] := by
      rintro rfl
      cases operand_nil.symm.trans hoperand
    unfold readValue
    split
    · next hargs => exact absurd (List.cons.inj hargs).1 hne
    · rw [readValues]
      simp only [List.isEmpty_eq_false_iff.2 hne, hlabel, hoperand, Bool.false_eq_true, if_false,
        if_true]
      rw [hclauses.readValues_eq false (absurd · Bool.false_ne_true)]

theorem exists_valueSays {value : Value} (h : readValue defines args = .ok value) :
    ∃ said, ValueSays defines args said := by
  rcases readValue_eq_ok h with ⟨rfl, -⟩ | ⟨v, hv, -⟩
  · exact ⟨_, .nothing⟩
  · cases args with
    | nil => exact ⟨_, .clauses nofun .nil⟩
    | cons arg args =>
      rcases readValues_cons hv with ⟨label, rest, codes, content, value', hlabel, hcodes, hoperand,
        -, h⟩ | ⟨content, hlabel, hoperand, -, h⟩ | ⟨_, -, -, hfirst, -⟩
      · obtain ⟨pairs, hpairs⟩ := exists_clauses h
        refine ⟨_, .clauses ?_ (.labelled hlabel hcodes hoperand hpairs)⟩
        rintro _ ⟨⟩
        exact hlabel ▸ nofun
      · obtain ⟨pairs, hpairs⟩ := exists_clauses h
        exact ⟨_, .fallback hlabel hoperand hpairs⟩
      · cases hfirst

/-- What the pieces between the parentheses of an invocation say about the identifier. -/
inductive PiecesSay (defines : Defines) (ps : List Piece) (identifier : String) (said : Said) :
    Prop where
  | intro {first : List Piece} {others : List (List Piece)} :
    split true 0 ps = .ok (first :: others) → shown (trim first) = identifier →
    isIdentifier identifier = true → ValueSays defines (others.map trim) said →
    PiecesSay defines ps identifier said

/-- What is said is accepted unless a code is given two texts. -/
theorem PiecesSay.readAll_eq {identifier : String} (h : PiecesSay defines ps identifier said) :
    readAll defines true ps =
      (assignAll { fallback := said.fallback } said.pairs).map fun v =>
        ⟨identifier, v.normalizeWildcard⟩ := by
  obtain ⟨hsplit, hshown, hidentifier, hvalue⟩ := h
  have hne := isEmpty_of_isIdentifier hidentifier
  rw [readAll_of_split hsplit, hvalue.readValue_eq, hshown]
  simp only [hne, hidentifier, Bool.not_true, Bool.false_eq_true, if_false]
  cases assignAll { fallback := said.fallback } said.pairs <;> rfl

/-- Whatever is accepted says something. -/
theorem exists_piecesSay {closed : Bool} {read : Invocation}
    (h : readAll defines closed ps = .ok read) :
    closed = true ∧ ∃ said, PiecesSay defines ps read.identifier said := by
  obtain ⟨parts, hsplit, hidentifier, hread, hvalue⟩ := readAll_eq_ok h
  obtain ⟨said, hsaid⟩ := exists_valueSays hvalue
  have hclosed := closed_of_split hsplit
  rw [hclosed] at hsplit
  cases parts with
  | nil => exact absurd hidentifier (by decide)
  | cons first others =>
    exact ⟨hclosed, said, .intro hsplit hread.symm (hread ▸ hidentifier) (by simpa using hsaid)⟩

end Argument

/-! ## Texts of arguments -/

/-- The text between the parentheses of an invocation says this about the identifier. -/
inductive Says (defines : Defines) (source identifier : String) (said : Said) : Prop where
  | intro {ps : List Piece} :
    Argument.read source.toList = (ps, []) → Argument.PiecesSay defines ps identifier said →
    Says defines source identifier said

variable {defines : Defines} {source source' identifier : String} {whole part : Said}
  {read : Invocation}

theorem Says.parseArguments_eq {said : Said} (h : Says defines source identifier said) :
    parseArguments defines source =
      (Argument.assignAll { fallback := said.fallback } said.pairs).map fun v =>
        ⟨identifier, v.normalizeWildcard⟩ := by
  obtain ⟨hread, hsays⟩ := h
  rw [parseArguments, hread]
  exact hsays.readAll_eq

theorem exists_said (h : parseArguments defines source = .ok read) :
    ∃ said, Says defines source read.identifier said := by
  rw [parseArguments] at h
  obtain ⟨hclosed, said, hsays⟩ := Argument.exists_piecesSay h
  exact ⟨said, .intro (Prod.ext rfl (List.isEmpty_iff.1 hclosed)) hsays⟩

/-! ## Values -/

namespace Value

variable {v w : Value}

/-- In normal form the wildcard gives the fallback where there is none. -/
theorem at?_none_normalizeWildcard (v : Value) :
    v.normalizeWildcard.at? none = v.fallback.or (v.at? (some wildcardLocale)) := by
  unfold normalizeWildcard
  split
  · next hnone =>
    have hnone : v.at? (some wildcardLocale) = none := hnone
    rw [hnone, Option.or_none, at?]
  · next text htext =>
    split
    · next hfallback =>
      rw [hfallback, Option.none_or]
      exact htext.symm
    · next fallback hfallback =>
      rw [hfallback, Option.some_or]
      split
      · rw [at?]
      · exact hfallback

/-- In normal form the wildcard has a text only beside another fallback. -/
theorem at?_some_normalizeWildcard (v : Value) (code : String) :
    v.normalizeWildcard.at? (some code) =
      if code = wildcardLocale ∧ (v.fallback = none ∨ v.fallback = v.at? (some wildcardLocale))
      then none else v.at? (some code) := by
  have herase : ∀ fallback, at? ⟨fallback, v.locales.erase wildcardLocale⟩ (some code) =
      if code = wildcardLocale then none else v.at? (some code) := fun _ =>
    SortedMap.get?_erase ..
  unfold normalizeWildcard
  split
  · next hnone =>
    have hnone : v.at? (some wildcardLocale) = none := hnone
    split
    · next hcode => rw [hcode.1, hnone]
    · rfl
  · next text htext =>
    have htext : v.at? (some wildcardLocale) = some text := htext
    split
    · next hfallback => simp only [herase, hfallback, true_or, and_true]
    · next fallback hfallback =>
      rw [htext, hfallback]
      split
      · next heq => simp only [herase, heq, or_true, and_true]
      · next hne => simp [hne]

/-- A part of the texts stays one in normal form, if the wildcard does not become
another fallback. -/
theorem below_normalizeWildcard (hfallback : v.fallback = none ∨ v.fallback = w.fallback)
    (hlocales : ∀ code text, v.at? (some code) = some text → w.at? (some code) = some text)
    (hwild : v.fallback = none → ∀ text other, w.fallback = some text →
      v.at? (some wildcardLocale) = some other → text = other) :
    v.normalizeWildcard.Below w.normalizeWildcard := by
  intro key text ht
  cases key with
  | none =>
    rw [at?_none_normalizeWildcard] at ht ⊢
    cases hv : v.fallback with
    | some first =>
      rw [hv, Option.some_or] at ht
      rw [← hfallback.resolve_left (hv ▸ nofun), hv, Option.some_or, ht]
    | none =>
      rw [hv, Option.none_or] at ht
      cases hw : w.fallback with
      | none => rw [Option.none_or, hlocales _ _ ht]
      | some first => rw [hwild hv first text hw ht, Option.some_or]
  | some code =>
    rw [at?_some_normalizeWildcard] at ht ⊢
    split at ht
    · cases ht
    · next hkeep =>
      rw [if_neg ?_, hlocales code text ht]
      rintro ⟨rfl, hdrop⟩
      have hsome : v.fallback ≠ none := fun hnone => hkeep ⟨rfl, .inl hnone⟩
      rw [← hfallback.resolve_left hsome, hlocales _ _ ht, ← ht] at hdrop
      exact hkeep ⟨rfl, hdrop⟩

end Value

/-! ## Parts -/

namespace Said

variable {said : Said} {v : Value}

theorem gives_empty (fallback : Option String) : Value.Gives { fallback } [] :=
  fun _ _ => ⟨nofun, nofun⟩

/-- The value before its normal form is what is said. -/
theorem gives_of_assignAll
    (h : Argument.assignAll { fallback := said.fallback } said.pairs = .ok v) :
    v.fallback = said.fallback ∧ v.Gives said.pairs := by
  rcases (gives_empty said.fallback).assignAll said.pairs with ⟨w, hw, hfallback, hgives⟩ |
    ⟨_, _, _, _, _, -, -, -, -, herror⟩
  · obtain rfl := Except.ok.inj (h.symm.trans hw)
    exact ⟨hfallback, hgives⟩
  · cases h.symm.trans herror

theorem exists_assignAll_eq_ok (h : Consistent said.pairs) :
    ∃ v, Argument.assignAll { fallback := said.fallback } said.pairs = .ok v := by
  rcases (gives_empty said.fallback).assignAll said.pairs with ⟨v, hv, -⟩ |
    ⟨before, code, first, text, after, hpairs, -, hfirst, hne, -⟩
  · exact ⟨v, hv⟩
  · have hfirst : (code, first) ∈ said.pairs := hpairs ▸ List.mem_append_left _ hfirst
    have htext : (code, text) ∈ said.pairs :=
      hpairs ▸ List.mem_append_right _ List.mem_cons_self
    exact absurd (h code first text hfirst htext) hne

end Said

/-- A part of what is accepted is accepted.  Its texts are among those of the whole, or
it loses the fallback and gives another one. -/
theorem Says.below_of_part (h : Says defines source read.identifier whole)
    (hread : parseArguments defines source = .ok read) (hpart : part.PartOf whole)
    (h' : Says defines source' read.identifier part) :
    ∃ value, parseArguments defines source' = .ok ⟨read.identifier, value⟩ ∧
      (¬part.LosesFallback whole → value.Below read.value) ∧
      (part.LosesFallback whole → ∃ text other, read.value.at? none = some text ∧
        value.at? none = some other ∧ text ≠ other) := by
  obtain ⟨w, hw, hvalue⟩ := map_eq_ok (h.parseArguments_eq.symm.trans hread)
  obtain ⟨hwfallback, hwgives⟩ := Said.gives_of_assignAll hw
  have hconsistent : Consistent part.pairs := fun code a b ha hb =>
    hwgives.consistent_pairs code a b (hpart.pairs ha) (hpart.pairs hb)
  obtain ⟨v, hv⟩ := Said.exists_assignAll_eq_ok hconsistent
  obtain ⟨hvfallback, hvgives⟩ := Said.gives_of_assignAll hv
  have hread' : read.value = w.normalizeWildcard := by rw [← hvalue]
  refine ⟨v.normalizeWildcard, by rw [h'.parseArguments_eq, hv]; rfl, fun hkeeps => ?_,
    fun ⟨hnone, text, other, htext, hother, hne⟩ => ⟨text, other, ?_, ?_, hne⟩⟩
  · rw [hread']
    refine Value.below_normalizeWildcard ?_ (fun code text ht => ?_)
      fun hnone text other ht ho => ?_
    · rw [hvfallback, hwfallback]
      exact hpart.fallback
    · exact (hwgives code text).2 (hpart.pairs ((hvgives code text).1 ht))
    · by_contra hne
      exact hkeeps ⟨hvfallback ▸ hnone, text, other, hwfallback ▸ ht, (hvgives _ _).1 ho, hne⟩
  · rw [hread', Value.at?_none_normalizeWildcard, hwfallback, htext, Option.some_or]
  · rw [Value.at?_none_normalizeWildcard, hvfallback, hnone, Option.none_or]
    exact (hvgives _ _).2 hother

end FlashStrings
