import FlashStrings.Proofs.Invocation.Tokens

/-!
# The clauses of an argument text

An `ArgumentList` is what an argument text says: an identifier, a fallback and
clauses.  Its tokens may have any blanks around them.  When such a text is read
(`parseArguments_of_spaced`), the result depends on the pairs of a code and a text
alone.  If no code has two texts, the value has the fallback and just these pairs;
otherwise the first pair that gives its code a second text is reported, with the
text that the code has from a pair before it.

One pair is either new to the value or contradicts it (`Value.Gives.assign`), and
the induction over the pairs keeps what has been given so far
(`Value.Gives.assignAll`).
-/

namespace FlashStrings

/-! ## Giving texts to codes -/

/-- No code is given two different texts. -/
def Consistent (pairs : List (String × String)) : Prop :=
  ∀ code a b, (code, a) ∈ pairs → (code, b) ∈ pairs → a = b

instance (pairs : List (String × String)) : Decidable (Consistent pairs) :=
  decidable_of_iff (∀ p ∈ pairs, ∀ q ∈ pairs, p.1 = q.1 → p.2 = q.2)
    ⟨fun h code a b ha hb => h (code, a) ha (code, b) hb rfl, fun h p hp q hq he =>
      h p.1 p.2 q.2 hp (he ▸ hq)⟩

namespace Value

variable {v : Value} {pairs : List (String × String)}

/-- The locale codes of the value have the texts of the pairs. -/
def Gives (v : Value) (pairs : List (String × String)) : Prop :=
  ∀ code text, v.locales.get? code = some text ↔ (code, text) ∈ pairs

theorem Gives.consistent_pairs (h : v.Gives pairs) : Consistent pairs := by
  intro code a b ha hb
  exact Option.some.inj (((h code a).2 ha).symm.trans ((h code b).2 hb))

/-- A pair is given to the value, or the code has another text. -/
theorem Gives.assign (h : v.Gives pairs) (code text : String) :
    (∃ v', v.assign code text = .ok v' ∧ v'.fallback = v.fallback ∧
        v'.Gives (pairs ++ [(code, text)])) ∨
      ∃ first, (code, first) ∈ pairs ∧ first ≠ text ∧
        v.assign code text = .error (.duplicateLocale code first text) := by
  cases hget : v.locales.get? code with
  | none =>
    refine .inl ⟨{ v with locales := v.locales.insert code text }, by rw [Value.assign, hget], rfl,
      fun code' text' => ?_⟩
    show (v.locales.insert code text).get? code' = some text' ↔ _
    rw [SortedMap.get?_insert, List.mem_append, List.mem_singleton, Prod.mk.injEq]
    split
    · next heq =>
      subst heq
      have hnone : (code', text') ∉ pairs := fun hmem => by
        rw [(h code' text').2 hmem] at hget
        cases hget
      simp [hnone, eq_comm]
    · next hne => simp [hne, h code' text']
  | some first =>
    have hfirst : (code, first) ∈ pairs := (h code first).1 hget
    by_cases heq : first = text
    · subst heq
      refine .inl ⟨v, by rw [Value.assign, hget]; exact if_pos rfl, rfl, fun code' text' => ?_⟩
      rw [h code' text', List.mem_append, List.mem_singleton]
      exact ⟨.inl, fun hmem => hmem.elim id fun he => he ▸ hfirst⟩
    · exact .inr ⟨first, hfirst, heq, by rw [Value.assign, hget]; exact if_neg heq⟩

/-- All pairs are given to the value, or one of them is the first whose code has
another text. -/
theorem Gives.assignAll (h : v.Gives pairs) (rest : List (String × String)) :
    (∃ v', Argument.assignAll v rest = .ok v' ∧ v'.fallback = v.fallback ∧
        v'.Gives (pairs ++ rest)) ∨
      ∃ before code first text after, rest = before ++ (code, text) :: after ∧
        Consistent (pairs ++ before) ∧ (code, first) ∈ pairs ++ before ∧ first ≠ text ∧
        Argument.assignAll v rest = .error (.duplicateLocale code first text) := by
  induction rest generalizing v pairs with
  | nil => exact .inl ⟨v, rfl, rfl, by rwa [List.append_nil]⟩
  | cons pair rest ih =>
    obtain ⟨code, text⟩ := pair
    have hstep : Argument.assignAll v ((code, text) :: rest) =
        v.assign code text >>= fun v' => Argument.assignAll v' rest := List.foldlM_cons
    rcases h.assign code text with ⟨v', hok, hfallback, hgives⟩ | ⟨first, hmem, hne, herror⟩
    · rw [hstep, hok]
      rcases ih hgives with ⟨w, hw, hfallback', hall⟩ | ⟨before, code', first, text', after, rfl,
        hconsistent, hmem, hne, herror⟩
      · exact .inl ⟨w, hw, hfallback'.trans hfallback, by simpa using hall⟩
      · exact .inr ⟨(code, text) :: before, code', first, text', after, rfl,
          by simpa using hconsistent, by simpa using hmem, hne, herror⟩
    · refine .inr ⟨[], code, first, text, rest, rfl, ?_, ?_, hne, by rw [hstep, herror]; rfl⟩
      · rw [List.append_nil]
        exact h.consistent_pairs
      · rwa [List.append_nil]

end Value

/-! ## Argument lists -/

open CLiteral (quoted)

/-- Locale codes and the content of the literal that gives them their text. -/
structure Clause where
  codes : List String
  content : List Char
  codes_ne_nil : codes ≠ []
  isLocaleCode_of_mem : ∀ code ∈ codes, isLocaleCode code = true
  isQuotable_content : isQuotable content = true

/-- What an argument text says. -/
structure ArgumentList where
  identifier : String
  /-- The content of the literal that gives the fallback. -/
  fallback : Option (List Char)
  clauses : List Clause
  isIdentifier_identifier : isIdentifier identifier = true
  isQuotable_fallback : ∀ content ∈ fallback, isQuotable content = true

/-- The codes with semicolons between them, a colon and the literal. -/
def Clause.tokens (clause : Clause) : List (List Char) :=
  [[';']].intercalate (clause.codes.map fun code => [code.toList]) ++ [[':'], quoted clause.content]

namespace ArgumentList

variable (args : ArgumentList)

/-- The identifier, the fallback and the clauses, with commas between them. -/
def tokens : List (List Char) :=
  [[',']].intercalate ([args.identifier.toList] ::
    (args.fallback.toList.map (fun content => [quoted content]) ++
      args.clauses.map Clause.tokens))

/-- The text of each code, in the order of the clauses and of their codes. -/
def pairs : List (String × String) :=
  args.clauses.flatMap fun clause =>
    clause.codes.map fun code => (code, String.ofList clause.content)

/-- The clauses as codes and the contents of one literal. -/
def singles : List (List String × List (List Char)) :=
  args.clauses.map fun clause => (clause.codes, [clause.content])

theorem isClause_of_mem_singles : ∀ clause ∈ args.singles, Argument.IsClause clause.1 clause.2 := by
  intro clause hclause
  obtain ⟨c, -, rfl⟩ := List.mem_map.1 hclause
  exact {
    codes_ne_nil := c.codes_ne_nil
    isLocaleCode := c.isLocaleCode_of_mem
    contents_ne_nil := List.cons_ne_nil _ _
    isQuotable := fun content hcontent =>
      List.mem_singleton.1 hcontent ▸ c.isQuotable_content }

theorem isQuotable_of_mem_fallback :
    ∀ contents ∈ args.fallback.map fun content => [content], contents ≠ [] ∧
      ∀ content ∈ contents, isQuotable content = true := by
  intro contents hcontents
  obtain ⟨content, hcontent, rfl⟩ := Option.map_eq_some_iff.1 hcontents
  refine ⟨List.cons_ne_nil _ _, fun c hc => ?_⟩
  obtain rfl := List.mem_singleton.1 hc
  exact args.isQuotable_fallback c hcontent

theorem assignments_singles : Argument.assignments args.singles = args.pairs := by
  rw [Argument.assignments, singles, List.flatMap_map]
  simp only [Argument.textOf, Argument.concatSegments_singleton]
  rfl

/-- The pieces of the tokens. -/
def pieces : List (List Piece) :=
  Argument.argumentTokens args.identifier (args.fallback.map fun content => [content]) args.singles

theorem text_pieces : args.pieces.map Argument.text = args.tokens := by
  have hclause (clause : Clause) :
      (Argument.clauseTokens clause.codes [clause.content]).map Argument.text = clause.tokens := by
    rw [Argument.clauseTokens, List.map_append, Argument.text_labelTokens]
    simp [Argument.literalTokens, Argument.text, Piece.text, Clause.tokens, quoted]
  have hvalues : (Argument.valueTokens (args.fallback.map fun content => [content])
      args.singles).map (List.map Argument.text) =
      args.fallback.toList.map (fun content => [quoted content]) ++
        args.clauses.map Clause.tokens := by
    rw [Argument.valueTokens, singles, List.map_append, List.map_map, List.map_map, List.map_map]
    congr 1
    · cases args.fallback with
      | none => rfl
      | some content => simp [Argument.literalTokens, Argument.text, Piece.text, quoted]
    · exact List.map_congr_left fun clause _ => hclause clause
  rw [pieces, Argument.argumentTokens, Spaced.map_intercalate, List.map_cons, hvalues, tokens,
    List.map_singleton, Argument.text_wordToken]
  rfl

end ArgumentList

/-- Any argument list, with any blanks around its tokens, is read as what it
says, with the wildcard folded in.  If a code is given two texts, the first pair in
the order of the clauses and their codes that gives a second one is reported. -/
theorem parseArguments_of_spaced (args : ArgumentList) (defines : Defines) {s : List Char}
    (h : Spaced isBlank args.tokens s) :
    (Consistent args.pairs → ∃ locales : TextMap String,
      (∀ code text, locales.get? code = some text ↔ (code, text) ∈ args.pairs) ∧
      parseArguments defines (String.ofList s) = .ok
        { identifier := args.identifier,
          value := Value.normalizeWildcard
            { fallback := args.fallback.map String.ofList, locales } }) ∧
    (¬Consistent args.pairs → ∃ before code first text after,
      args.pairs = before ++ (code, text) :: after ∧
      Consistent before ∧ (code, first) ∈ before ∧ first ≠ text ∧
      parseArguments defines (String.ofList s) = .error (.duplicateLocale code first text)) := by
  have hfallback := args.isQuotable_of_mem_fallback
  have hclauses := args.isClause_of_mem_singles
  have hmade := Argument.madeOf_argumentTokens args.isIdentifier_identifier hfallback hclauses
  rw [← args.text_pieces] at h
  obtain ⟨ps, hread, hps⟩ := Argument.MadeOf.read_eq hmade h
  have hall := Argument.readAll_of_spaced defines args.isIdentifier_identifier
    hfallback hclauses hps
  have hparse : parseArguments defines (String.ofList s) =
      Argument.readAll defines true ps := by
    rw [parseArguments, String.toList_ofList, hread]
    rfl
  have hempty : Value.Gives { fallback := args.fallback.map String.ofList } [] := by
    intro code text
    exact ⟨nofun, nofun⟩
  have hstart : (args.fallback.map fun content => [content]).map Argument.textOf =
      args.fallback.map String.ofList := by
    rw [Option.map_map]
    exact congrArg (args.fallback.map ·) (funext fun content =>
      congrArg String.ofList (Argument.concatSegments_singleton content))
  rw [hall, hstart, args.assignments_singles] at hparse
  rcases hempty.assignAll args.pairs with ⟨v, hv, hfallback, hgives⟩ |
    ⟨before, code, first, text, after, hpairs, hconsistent, hfirst, hne, herror⟩
  · rw [List.nil_append] at hgives
    refine ⟨fun _ => ⟨v.locales, hgives, ?_⟩, fun h => absurd hgives.consistent_pairs h⟩
    have hfallback : v.fallback = args.fallback.map String.ofList := hfallback
    rw [hparse, hv, ← hfallback]
    rfl
  · rw [List.nil_append] at hconsistent hfirst
    refine ⟨fun h => ?_, fun _ =>
      ⟨before, code, first, text, after, hpairs, hconsistent, hfirst, hne, ?_⟩⟩
    · have hmem : (code, first) ∈ args.pairs := hpairs ▸ List.mem_append_left _ hfirst
      have hmem' : (code, text) ∈ args.pairs :=
        hpairs ▸ List.mem_append_right _ List.mem_cons_self
      exact absurd (h code first text hmem hmem') hne
    · rw [hparse, herror]
      rfl

/-- Marks and escaped quotes in the texts, two codes in one clause, and a wildcard. -/
def sampleList : ArgumentList where
  identifier := "title"
  fallback := some "a, \\\"b\\\" (c".toList
  clauses := [
    { codes := ["de", "bg"], content := "x: y;".toList,
      codes_ne_nil := List.cons_ne_nil _ _, isLocaleCode_of_mem := by decide,
      isQuotable_content := by decide },
    { codes := ["*"], content := "a, \\\"b\\\" (c".toList,
      codes_ne_nil := List.cons_ne_nil _ _, isLocaleCode_of_mem := by decide,
      isQuotable_content := by decide }]
  isIdentifier_identifier := by decide
  isQuotable_fallback := by decide

theorem parseArguments_of_spaced_sample :
    ∃ s, String.ofList s =
        "title, \"a, \\\"b\\\" (c\",\n  de; bg : \"x: y;\", *: \"a, \\\"b\\\" (c\" " ∧
      Spaced isBlank sampleList.tokens s ∧ Consistent sampleList.pairs ∧
      ∃ locales : TextMap String,
        (∀ code text, locales.get? code = some text ↔ (code, text) ∈ sampleList.pairs) ∧
        parseArguments ∅ (String.ofList s) = .ok
          { identifier := sampleList.identifier,
            value := Value.normalizeWildcard
              { fallback := sampleList.fallback.map String.ofList, locales } } := by
  have space {tokens : List (List Char)} {s : List Char} (h : Spaced isBlank tokens s) :
      Spaced isBlank tokens (' ' :: s) := .blank rfl h
  have newline {tokens : List (List Char)} {s : List Char} (h : Spaced isBlank tokens s) :
      Spaced isBlank tokens ('\n' :: s) := .blank rfl h
  have hs : Spaced isBlank sampleList.tokens _ :=
    .token (.token (space (.token (.token (newline (space (space (.token (.token (space (.token
      (space (.token (space (.token (.token (space (.token (.token (space (.token
        (space .nil))))))))))))))))))))))
  have hconsistent : Consistent sampleList.pairs := by decide
  exact ⟨_, by decide, hs, hconsistent, (parseArguments_of_spaced sampleList ∅ hs).1 hconsistent⟩

end FlashStrings
