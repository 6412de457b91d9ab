import FlashStrings.Proofs.Invocation.Segments
import FlashStrings.Proofs.Invocation.Texts
import FlashStrings.Proofs.Source.Continuation

/-!
# Literals that stand alone

`Argument.Alone` says that a literal is a whole value among the arguments of an
invocation: the fallback, or the text for a locale code.  Arguments that are accepted
give its content to this key (`Argument.Alone.holds`).  Reading a later argument never
takes a text back (`Argument.below_of_readValues`), and only the text of the wildcard
may move, to the fallback.

The pieces in front of the literal also tell where it stands in the code.  Where reading
comes to an opening quote behind just these pieces, the code goes on with the content of
the literal (`Argument.Alone.quoted?_eq`).
-/

namespace FlashStrings

namespace Value

variable {v w : Value} {key : Option String} {code text : String}

/-- The text is there under the key, or as the fallback if the key is the wildcard. -/
def Holds (v : Value) (key : Option String) (text : String) : Prop :=
  v.at? key = some text ∨ key = some wildcardLocale ∧ v.at? none = some text

theorem Holds.mono (h : v.Holds key text) (hbelow : v.Below w) : w.Holds key text :=
  h.imp (hbelow key text) (And.imp_right (hbelow none text))

/-- A code that is given a text has it, and no text is taken back. -/
theorem at?_assign (h : v.assign code text = .ok w) :
    w.at? (some code) = some text ∧ v.Below w := by
  rw [assign] at h
  split at h
  · next first hfirst =>
    split at h
    · next heq =>
      obtain rfl := Except.ok.inj h
      exact ⟨heq ▸ hfirst, .refl v⟩
    · cases h
  · next hnone =>
    obtain rfl := Except.ok.inj h
    refine ⟨SortedMap.get?_insert .. |>.trans (if_pos rfl), fun key text' ht => ?_⟩
    cases key with
    | none => exact ht
    | some code' =>
      have hne : code' ≠ code := by
        rintro rfl
        have hsome := hnone.symm.trans ht
        cases hsome
      exact (SortedMap.get?_insert ..).trans ((if_neg hne).trans ht)

theorem at?_foldlM_assign {codes : List String}
    (h : codes.foldlM (fun v code => v.assign code text) v = .ok w) :
    (∀ code ∈ codes, w.at? (some code) = some text) ∧ v.Below w := by
  induction codes generalizing v with
  | nil =>
    obtain rfl := Except.ok.inj h
    exact ⟨List.forall_mem_nil _, .refl v⟩
  | cons code codes ih =>
    rw [List.foldlM_cons] at h
    obtain ⟨u, hassign, h⟩ := bind_eq_ok h
    obtain ⟨hcode, hbelow⟩ := at?_assign hassign
    obtain ⟨hcodes, hbelow'⟩ := ih h
    exact ⟨List.forall_mem_cons.2 ⟨hbelow' _ _ hcode, hcodes⟩, hbelow.trans hbelow'⟩

/-- In normal form a text of the wildcard may be the fallback. -/
theorem holds_normalizeWildcard (h : v.at? key = some text) :
    v.normalizeWildcard.Holds key text := by
  unfold normalizeWildcard
  split
  · exact .inl h
  · next wild hwild =>
    have hlocale : ∀ fallback code, code ≠ wildcardLocale → v.at? (some code) = some text →
        at? ⟨fallback, v.locales.erase wildcardLocale⟩ (some code) = some text :=
      fun _ _ hne ht => (SortedMap.get?_erase ..).trans ((if_neg hne).trans ht)
    split
    · next hnone =>
      cases key with
      | none => exact absurd (hnone.symm.trans h) nofun
      | some code =>
        by_cases heq : code = wildcardLocale
        · subst heq
          exact .inr ⟨rfl, hwild.symm.trans h⟩
        · exact .inl (hlocale _ code heq h)
    · next fallback hfallback =>
      split
      · next hsame =>
        cases key with
        | none => exact .inl h
        | some code =>
          by_cases heq : code = wildcardLocale
          · subst heq
            exact .inr ⟨rfl, hfallback.trans (hsame ▸ hwild.symm.trans h)⟩
          · exact .inl (hlocale _ code heq h)
      · exact .inl h

end Value

namespace Argument

variable {defines : Defines} {ps front back : List Piece} {body : List Char}

/-! ## Values -/

/-- Reading more arguments takes no text back. -/
theorem below_of_readValues {value result : Value} {pending : List String}
    {args : List (List Piece)}
    (h : readValues defines false value pending args = .ok result) : value.Below result := by
  induction args generalizing value pending with
  | nil =>
    rw [readValues] at h
    split at h
    · exact Except.ok.inj h ▸ .refl value
    · cases h
  | cons arg args ih =>
    rcases readValues_cons h with ⟨label, rest, codes, content, value', -, -, -, hassign, h⟩ |
      ⟨content, -, -, hfirst, -⟩ | ⟨code, -, -, -, h⟩
    · exact (Value.at?_foldlM_assign hassign).2.trans (ih h)
    · cases hfirst
    · exact ih h

/-- Arguments that are accepted are also read from any place on. -/
theorem exists_readValues {first : Bool} {value result : Value} {pending : List String}
    {before args : List (List Piece)}
    (h : readValues defines first value pending (before ++ args) = .ok result) :
    ∃ first value pending, readValues defines first value pending args = .ok result := by
  induction before generalizing first value pending with
  | nil => exact ⟨first, value, pending, h⟩
  | cons arg before ih =>
    rcases readValues_cons h with ⟨_, _, _, _, _, -, -, -, -, h⟩ | ⟨_, -, -, -, h⟩ |
      ⟨_, -, -, -, h⟩
    · exact ih h
    · exact ih h
    · exact ih h

/-- The value is one literal, perhaps in parentheses. -/
def IsLiteral (ps : List Piece) (body : List Char) : Prop := unwrap (trim ps) = [.literal '"' body]

theorem IsLiteral.operand_eq (h : IsLiteral ps body) :
    operand defines ps = .text (String.ofList body) := by
  have hforeign : isForeign '"' = true := by decide
  have hcode : isLocaleCode (shown [.literal '"' body]) = false :=
    not_isLocaleCode_of_mem List.mem_cons_self hforeign
  have hsegments : segments? defines [] [.literal '"' body] = some [body] := by
    rw [segments?, segments?]
    rfl
  have hps : unwrap (trim ps) = [.literal '"' body] := h
  simp only [operand, hps, hcode, hsegments, List.isEmpty_cons, Bool.false_eq_true, if_false,
    concatSegments_singleton]

/-! ## Literals -/

/-- A literal of this content is a value among the arguments, behind the pieces `front`:
the fallback, or the text for a locale code. -/
inductive Alone (ps : List Piece) (body : List Char) : List Piece → Option String → Prop where
  | fallback {identifier part lead tail : List Piece} {others : List (List Piece)} :
    split true 0 ps = .ok (identifier :: part :: others) →
    part = lead ++ .literal '"' body :: tail → label? 0 (trim part) = none →
    IsLiteral (trim part) body → Alone ps body (joinWith [.char ','] [identifier, lead]) none
  | locale {identifier part lead tail label rest : List Piece}
    {before others : List (List Piece)} {codes : List String} {code : String} :
    split true 0 ps = .ok (identifier :: (before ++ part :: others)) →
    part = lead ++ .literal '"' body :: tail → label? 0 (trim part) = some (label, rest) →
    localeCodes (text label) = .ok codes → code ∈ codes → IsLiteral rest body →
    Alone ps body (joinWith [.char ','] (identifier :: (before ++ [lead]))) (some code)

/-- Arguments that are accepted give the content of the literal to its key. -/
theorem Alone.holds {key : Option String} {read : Invocation} (h : Alone ps body front key)
    (hread : readAll defines true ps = .ok read) :
    read.value.Holds key (String.ofList body) := by
  obtain ⟨parts, hparts, -, -, hvalue⟩ := readAll_eq_ok hread
  cases h with
  | @fallback identifier part lead tail others hsplit hpart hlabel hliteral =>
    obtain rfl := Except.ok.inj (hsplit.symm.trans hparts)
    rcases readValue_eq_ok hvalue with ⟨hempty, -⟩ | ⟨v, hv, hnormal⟩
    · have hnil : trim part = [] := (List.cons.inj hempty).1
      have hnone : unwrap (trim []) = [] := by rw [unwrap]; rfl
      rw [hnil, IsLiteral, hnone] at hliteral
      cases hliteral
    · rw [← hnormal]
      refine Value.holds_normalizeWildcard ?_
      rcases readValues_cons hv with ⟨_, _, _, _, _, hsome, -⟩ | ⟨content, -, hoperand, -, hrest⟩ |
        ⟨_, -, hoperand, -⟩
      · cases hlabel.symm.trans hsome
      · obtain rfl := Operand.text.inj (hliteral.operand_eq.symm.trans hoperand)
        exact below_of_readValues hrest none _ rfl
      · cases hliteral.operand_eq.symm.trans hoperand
  | @locale identifier part lead tail label rest before others codes code hsplit hpart hlabel
      hcodes hcode hliteral =>
    obtain rfl := Except.ok.inj (hsplit.symm.trans hparts)
    rw [List.map_cons, List.tail_cons, List.map_append, List.map_cons] at hvalue
    rcases readValue_eq_ok hvalue with ⟨hempty, -⟩ | ⟨v, hv, hnormal⟩
    · have hmem : trim part ∈ [[]] := hempty ▸ List.mem_append_right _ List.mem_cons_self
      rw [List.mem_singleton.1 hmem] at hlabel
      cases hlabel
    · rw [← hnormal]
      refine Value.holds_normalizeWildcard ?_
      obtain ⟨first, value, pending, hv⟩ := exists_readValues hv
      rcases readValues_cons hv with ⟨label', rest', codes', content, value', hsome, hcodes',
        hoperand, hassign, hrest⟩ | ⟨_, hnone, -⟩ | ⟨_, hnone, -⟩
      · obtain ⟨rfl, rfl⟩ := Prod.mk.inj (Option.some.inj (hlabel.symm.trans hsome))
        obtain rfl := Except.ok.inj (hcodes.symm.trans hcodes')
        obtain rfl := Operand.text.inj (hliteral.operand_eq.symm.trans hoperand)
        exact below_of_readValues hrest _ _
          ((Value.at?_foldlM_assign hassign).1 code (List.mem_append_right _ hcode))
      · cases hlabel.symm.trans hnone
      · cases hlabel.symm.trans hnone

/-! ## Places of literals -/

theorem joinWith_append (sep : List Piece) (before : List (List Piece)) (lead more : List Piece)
    (others : List (List Piece)) : joinWith sep (before ++ (lead ++ more) :: others) =
      joinWith sep (before ++ [lead]) ++ joinWith sep (more :: others) := by
  induction before with
  | nil => cases others <;> simp [joinWith]
  | cons part before ih =>
    have hne : ∀ (x : List Piece) xs, before ++ x :: xs = [] → False := by simp
    rw [List.cons_append, List.cons_append, joinWith, joinWith, ih,
      List.append_assoc _ _ (joinWith _ _)]
    · exact hne _ _
    · exact hne _ _

theorem exists_eq_append_of_split {closed : Bool} {p : Piece} {lead tail : List Piece}
    {before others : List (List Piece)}
    (h : split closed 0 ps = .ok (before ++ (lead ++ p :: tail) :: others)) :
    ∃ back, ps = joinWith [.char ','] (before ++ [lead]) ++ p :: back := by
  refine ⟨joinWith [.char ','] (tail :: others), ?_⟩
  rw [← (joinWith_of_split h).2, joinWith_append]
  exact congrArg _ (joinWith_pushFirst [.char ','] p (tail :: others))

/-- The literal stands behind the pieces in front of it. -/
theorem Alone.exists_eq_append {key : Option String} (h : Alone ps body front key) :
    ∃ back, ps = front ++ .literal '"' body :: back := by
  cases h with
  | @fallback identifier part lead tail others hsplit hpart =>
    subst hpart
    exact @exists_eq_append_of_split _ _ _ lead tail [identifier] others hsplit
  | @locale identifier part lead tail label rest before others codes code hsplit hpart =>
    subst hpart
    exact @exists_eq_append_of_split _ _ _ lead tail (identifier :: before) others hsplit

/-- Where reading comes to a quote behind the pieces in front of a literal, the code goes
on with the literal. -/
theorem Alone.quoted?_eq {key : Option String} (h : Alone ps body front key)
    {depth width width' : Nat} {s : List Char}
    (hcollect : collect depth front.reverse width ('"' :: s) = .ok (ps, width')) :
    ∃ rest, quoted? '"' s = some (body, rest) := by
  obtain ⟨back, rfl⟩ := h.exists_eq_append
  rw [collect.eq_def] at hcollect
  simp only [Char.reduceEq, if_false, true_or, if_true] at hcollect
  split at hcollect
  · next body' rest hbody =>
    have hprefix := prefix_of_collect hcollect
    rw [List.reverse_cons, List.reverse_reverse, List.prefix_append_right_inj,
      List.cons_prefix_cons] at hprefix
    obtain ⟨-, rfl⟩ := Piece.literal.inj hprefix.1
    exact ⟨rest, hbody⟩
  · cases hcollect

end Argument

end FlashStrings
