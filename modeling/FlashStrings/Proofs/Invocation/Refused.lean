import FlashStrings.Proofs.Invocation.Texts
import FlashStrings.Proofs.Text.Spaced

/-!
# Why arguments are refused

`Argument.Refusal` has one constructor for each error that arguments can give once they
are split, with what it shows: pieces of the arguments, valid locale codes, or contents of
operands (`Argument.refusal_of_readAll`).  So what an error shows stands in the arguments
or in the string defines (`Argument.Refusal.not_mem_shown`).
-/

namespace FlashStrings

/-- The texts that an error shows. -/
def ArgumentError.shown : ArgumentError → List String
  | .invalidIdentifier text | .invalidLocaleCode text | .missingLocaleValue text
  | .unexpectedValue text | .invalidValue text => [text]
  | .duplicateLocale code first second => [code, first, second]
  | .unterminatedString | .unbalancedParentheses | .missingIdentifier | .emptyArgument
  | .missingValue => []

namespace Argument

/-- Why arguments of these pieces are refused.  The contents of their operands have the
property. -/
inductive Refusal (ps : List Piece) (P : String → Prop) : ArgumentError → Prop where
  | missingIdentifier : Refusal ps P .missingIdentifier
  | invalidIdentifier {part : List Piece} :
    part ⊆ ps → Refusal ps P (.invalidIdentifier (shown part))
  | invalidLocaleCode {code : List Char} :
    code ⊆ text ps → Refusal ps P (.invalidLocaleCode (String.ofList code))
  | missingLocaleValue {codes : List String} : (∀ code ∈ codes, isLocaleCode code = true) →
    Refusal ps P (.missingLocaleValue (readValues.joined codes))
  | duplicateLocale {code first second : String} : isLocaleCode code = true → P first →
    P second → Refusal ps P (.duplicateLocale code first second)
  | unexpectedValue {part : List Piece} :
    part ⊆ ps → Refusal ps P (.unexpectedValue (shown part))
  | emptyArgument : Refusal ps P .emptyArgument
  | invalidValue {part : List Piece} : part ⊆ ps → Refusal ps P (.invalidValue (shown part))

variable {defines : Defines} {ps : List Piece} {P : String → Prop} {e : ArgumentError}

/-! ## Each step of reading -/

/-- Splitting stops at what is left open. -/
theorem split_eq_error {closed : Bool} {depth : Nat} (h : split closed depth ps = .error e) :
    e = .unterminatedString ∨ e = .unbalancedParentheses := by
  fun_induction split closed depth ps with
  | case1 => exact .inl (Except.error.inj h).symm
  | case2 => exact .inr (Except.error.inj h).symm
  | case3 => cases h
  | case5 => exact .inr (Except.error.inj h).symm
  | case4 depth ps ih | case6 ps depth ih | case7 ps ih | case8 depth ps _ ih
  | case9 depth p ps _ _ _ ih => exact ih (map_eq_error h)

/-- What is no text is shown as it stands. -/
theorem shown_of_operand {part : List Piece} {word : String}
    (h : operand defines part = .word word ∨ operand defines part = .other word) :
    shown (unwrap (trim part)) = word := by
  simp only [operand] at h
  split at h
  · simp at h
  · split at h
    · split at h
      · simp at h
      · simpa using h
    · split at h
      · simp at h
      · simpa using h

theorem refusal_of_operand {part : List Piece} {word : String} (hpart : part ⊆ ps)
    (h : operand defines part = .word word ∨ operand defines part = .other word) :
    Refusal ps P (.invalidValue word) := by
  rw [← shown_of_operand h]
  exact .invalidValue fun p hp => hpart (trim_subset part (unwrap_subset _ hp))

theorem refusal_of_localeCodes {label : List Piece} (hlabel : label ⊆ ps)
    (h : localeCodes (text label) = .error e) : Refusal ps P e := by
  obtain ⟨part, hpart, h⟩ := mapM_eq_error h
  dsimp only at h
  split at h
  · cases h
  · obtain rfl := Except.error.inj h
    refine .invalidLocaleCode fun c hc => text_subset hlabel ?_
    rw [← joinWith_cutAt ';' (text label)]
    exact subset_joinWith _ hpart (mem_of_mem_trimWhile hc)

theorem refusal_of_assign {v : Value} {codes : List String} {content : String} (hv : v.Each P)
    (hcodes : ∀ code ∈ codes, isLocaleCode code = true) (hcontent : P content)
    (h : codes.foldlM (fun v code => v.assign code content) v = .error e) : Refusal ps P e := by
  induction codes generalizing v with
  | nil => cases h
  | cons code codes ih =>
    obtain ⟨hcode, hcodes⟩ := List.forall_mem_cons.1 hcodes
    rw [List.foldlM_cons] at h
    rcases bind_eq_error h with hassign | ⟨v', hassign, h⟩
    · unfold Value.assign at hassign
      split at hassign
      · next first hfirst =>
        split at hassign
        · cases hassign
        · obtain rfl := Except.error.inj hassign
          exact .duplicateLocale hcode (hv.texts (some code) first hfirst) hcontent
      · cases hassign
    · exact ih (hv.assign hcode hcontent hassign) hcodes h

/-! ## Values -/

theorem refusal_of_readValues {first : Bool} {value : Value} {pending : List String}
    {args : List (List Piece)} (hv : value.Each P)
    (hpending : ∀ code ∈ pending, isLocaleCode code = true) (hargs : ∀ arg ∈ args, arg ⊆ ps)
    (hps : OperandsHave defines P ps)
    (h : readValues defines first value pending args = .error e) : Refusal ps P e := by
  induction args generalizing first value pending with
  | nil =>
    rw [readValues] at h
    split at h
    · cases h
    · obtain rfl := Except.error.inj h
      exact .missingLocaleValue hpending
  | cons arg args ih =>
    obtain ⟨harg, hargs⟩ := List.forall_mem_cons.1 hargs
    rw [readValues] at h
    split at h
    · obtain rfl := Except.error.inj h
      exact .emptyArgument
    split at h
    · next label rest hlabel =>
      have hparts := eq_of_label? hlabel
      have hlabelsub : label ⊆ ps := fun p hp => harg (hparts ▸ List.mem_append_left _ hp)
      have hrest : rest ⊆ ps := fun p hp =>
        harg (hparts ▸ List.mem_append_right _ (List.mem_cons_of_mem _ hp))
      rcases bind_eq_error h with hcodes | ⟨codes, hcodes, h⟩
      · exact refusal_of_localeCodes hlabelsub hcodes
      have hall : ∀ code ∈ pending ++ codes, isLocaleCode code = true := fun code hcode =>
        (List.mem_append.1 hcode).elim (hpending code) ((localeCodes_eq_ok hcodes).2 code)
      dsimp only at h
      split at h
      · next content hoperand =>
        have hcontent := hps rest hrest content hoperand
        rcases bind_eq_error h with hassign | ⟨value', hassign, h⟩
        · exact refusal_of_assign hv hall hcontent hassign
        · exact ih (hv.foldlM_assign hall hcontent hassign) (List.forall_mem_nil _) hargs h
      · next word hoperand =>
        obtain rfl := Except.error.inj h
        exact refusal_of_operand hrest (.inl hoperand)
      · next word hoperand =>
        obtain rfl := Except.error.inj h
        exact refusal_of_operand hrest (.inr hoperand)
      · obtain rfl := Except.error.inj h
        exact .missingLocaleValue hall
    · split at h
      · next content hoperand =>
        split at h
        · exact ih (hv.withFallback (hps arg harg content hoperand)) hpending hargs h
        · obtain rfl := Except.error.inj h
          exact .unexpectedValue harg
      · next word hoperand =>
        split at h
        · obtain rfl := Except.error.inj h
          exact refusal_of_operand harg (.inl hoperand)
        · refine ih hv (fun code hcode => ?_) hargs h
          rcases List.mem_append.1 hcode with hcode | hcode
          · exact hpending code hcode
          · obtain rfl := List.mem_singleton.1 hcode
            exact isLocaleCode_of_operand hoperand
      · next word hoperand =>
        obtain rfl := Except.error.inj h
        exact refusal_of_operand harg (.inr hoperand)
      · obtain rfl := Except.error.inj h
        exact .emptyArgument

/-- Arguments are refused because something is left open, or for one of these reasons. -/
theorem refusal_of_readAll {closed : Bool} (hps : OperandsHave defines P ps)
    (h : readAll defines closed ps = .error e) :
    split closed 0 ps = .error e ∨ Refusal ps P e := by
  rw [readAll] at h
  rcases bind_eq_error h with hsplit | ⟨parts, hparts, h⟩
  · exact .inl hsplit
  have hsub : ∀ arg ∈ parts.map trim, arg ⊆ ps := by
    intro arg harg
    obtain ⟨part, hpart, rfl⟩ := List.mem_map.1 harg
    exact List.Subset.trans (trim_subset part) (subset_of_split hparts hpart)
  refine .inr ?_
  dsimp only at h
  split at h
  · obtain rfl := Except.error.inj h
    exact .missingIdentifier
  split at h
  · obtain rfl := Except.error.inj h
    refine .invalidIdentifier ?_
    cases hargs : parts.map trim with
    | nil => exact List.nil_subset _
    | cons arg args => exact hsub arg (hargs ▸ List.mem_cons_self)
  rcases bind_eq_error h with hvalue | ⟨value, -, h⟩
  · unfold readValue at hvalue
    split at hvalue
    · cases hvalue
    · exact refusal_of_readValues (Value.each_empty P) (List.forall_mem_nil _)
        (fun arg harg => hsub arg (List.mem_of_mem_tail harg)) hps (map_eq_error hvalue)
  · cases h

/-! ## What is shown -/

variable {d : Char}

theorem not_mem_of_isLocaleCode {code : String} (h : isLocaleCode code = true)
    (hd : isLocaleChar d = false) (hne : d ≠ '*') : d ∉ code.toList := by
  intro hmem
  rw [← String.ofList_toList (s := code), not_isLocaleCode_of_char hmem hd hne] at h
  cases h

/-- A character that no locale code has and that stands neither in the arguments nor in
the contents of operands is not shown. -/
theorem Refusal.not_mem_shown (h : Refusal ps P e) (hd : isLocaleChar d = false)
    (hmarks : d ∉ ['*', ';']) (hps : d ∉ text ps) (hP : ∀ content, P content → d ∉ content.toList) :
    ∀ s ∈ e.shown, d ∉ s.toList := by
  obtain ⟨hstar, hsemicolon⟩ : d ≠ '*' ∧ d ≠ ';' := by simpa using hmarks
  have hpart : ∀ {part : List Piece}, part ⊆ ps → ∀ s ∈ [shown part], d ∉ s.toList := by
    intro part hpart s hs hmem
    obtain rfl := List.mem_singleton.1 hs
    rw [shown, String.toList_ofList] at hmem
    exact hps (text_subset hpart hmem)
  cases h with
  | missingIdentifier | emptyArgument => exact List.forall_mem_nil _
  | invalidIdentifier hsub | unexpectedValue hsub | invalidValue hsub => exact hpart hsub
  | invalidLocaleCode hsub =>
    refine List.forall_mem_singleton.2 fun hmem => hps (hsub ?_)
    rwa [String.toList_ofList] at hmem
  | missingLocaleValue hcodes =>
    refine List.forall_mem_singleton.2 fun hmem => ?_
    rw [readValues.joined, String.toList_intercalate] at hmem
    refine forall_mem_intercalate (P := (· ≠ d)) (fun c hc => ?_) (fun s hs c hc => ?_) d hmem rfl
    · obtain rfl := List.mem_singleton.1 hc
      exact hsemicolon.symm
    · obtain ⟨code, hcode, rfl⟩ := List.mem_map.1 hs
      rintro rfl
      exact not_mem_of_isLocaleCode (hcodes code hcode) hd hstar hc
  | duplicateLocale hcode hfirst hsecond =>
    exact List.forall_mem_cons.2 ⟨not_mem_of_isLocaleCode hcode hd hstar,
      List.forall_mem_cons.2 ⟨hP _ hfirst, List.forall_mem_singleton.2 (hP _ hsecond)⟩⟩

end Argument

end FlashStrings
