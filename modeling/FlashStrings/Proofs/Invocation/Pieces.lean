import FlashStrings.Invocation.Arguments
import FlashStrings.Proofs.Except
import FlashStrings.Proofs.Text.Class
import FlashStrings.Proofs.Text.Trim

/-!
# Where the pieces of an argument text go

Splitting, trimming, labelling and unwrapping make no pieces (`subset_of_split`,
`trim_subset`, `eq_of_label?`, `unwrap_subset`), and they lose none but blanks and
marks: a piece that is *solid* stands in one of the arguments, in its label or its
value, and in the value after it is unwrapped.

`readValues_cons` says what one argument does when it is accepted, and
`readAll_ne_ok` that arguments with a character that no name and no locale code has
are never accepted.
-/

namespace FlashStrings

/-- A piece that is no blank and no mark between the parts of the arguments. -/
def Piece.IsSolid (p : Piece) : Prop :=
  p.isBlank = false ∧ p ∉ [.char '(', .char ')', .char ',', .char ':']

namespace Argument

variable {defines : Defines} {p : Piece} {ps : List Piece}

/-! ## Trimming -/

theorem trim_subset (ps : List Piece) : trim ps ⊆ ps := fun _ => mem_of_mem_trimWhile

theorem mem_trim (h : p ∈ ps) (hp : p.IsSolid) : p ∈ trim ps := mem_trimWhile h hp.1

/-! ## Splitting -/

theorem pushFirst_ne_nil (p : Piece) (parts : List (List Piece)) : pushFirst p parts ≠ [] := by
  cases parts <;> simp [pushFirst]

theorem joinWith_pushFirst (sep : List Piece) (p : Piece) (parts : List (List Piece)) :
    joinWith sep (pushFirst p parts) = p :: joinWith sep parts := by
  cases parts with
  | nil => rfl
  | cons part parts => cases parts <;> simp [pushFirst, joinWith]

theorem split_of_ne {p : Piece} (hopen : p ≠ .char '(') (hclose : p ≠ .char ')')
    (hcomma : p ≠ .char ',') (closed : Bool) (depth : Nat) (ps : List Piece) :
    split closed depth (p :: ps) = (split closed depth ps).map (pushFirst p) := by
  rw [split]
  · exact hopen
  · exact hclose
  · exact hcomma

/-- Splitting loses nothing but the commas. -/
theorem joinWith_of_split {closed : Bool} {depth : Nat} {parts : List (List Piece)}
    (h : split closed depth ps = .ok parts) :
    parts ≠ [] ∧ joinWith [.char ','] parts = ps := by
  have push {q : Piece} {ps : List Piece} {parts : List (List Piece)}
      (ih : joinWith [.char ','] parts = ps) :
      pushFirst q parts ≠ [] ∧ joinWith [.char ','] (pushFirst q parts) = q :: ps :=
    ⟨pushFirst_ne_nil q parts, by rw [joinWith_pushFirst, ih]⟩
  fun_induction split closed depth ps generalizing parts with
  | case1 => cases h
  | case2 => cases h
  | case3 =>
    obtain rfl := Except.ok.inj h
    exact ⟨by simp, rfl⟩
  | case4 depth ps ih =>
    obtain ⟨parts, hparts, rfl⟩ := map_eq_ok h
    exact push (ih hparts).2
  | case5 => cases h
  | case6 depth ps ih =>
    obtain ⟨parts, hparts, rfl⟩ := map_eq_ok h
    exact push (ih hparts).2
  | case7 ps ih =>
    obtain ⟨parts, hparts, rfl⟩ := map_eq_ok h
    obtain ⟨hne, hjoin⟩ := ih hparts
    refine ⟨by simp, ?_⟩
    rw [joinWith, hjoin]
    · rfl
    · exact hne
  | case8 depth ps _ ih =>
    obtain ⟨parts, hparts, rfl⟩ := map_eq_ok h
    exact push (ih hparts).2
  | case9 depth p ps _ _ _ ih =>
    obtain ⟨parts, hparts, rfl⟩ := map_eq_ok h
    exact push (ih hparts).2

theorem subset_of_split {closed : Bool} {depth : Nat} {parts : List (List Piece)}
    (h : split closed depth ps = .ok parts) {part : List Piece} (hpart : part ∈ parts) :
    part ⊆ ps := by
  rw [← (joinWith_of_split h).2]
  exact subset_joinWith _ hpart

/-- A solid piece stands in one of the arguments. -/
theorem exists_mem_of_split {closed : Bool} {depth : Nat} {parts : List (List Piece)}
    (h : split closed depth ps = .ok parts) (hmem : p ∈ ps) (hp : p.IsSolid) :
    ∃ part ∈ parts, p ∈ part := by
  have hne : p ≠ .char ',' := fun he => hp.2 (by simp [he])
  rw [← (joinWith_of_split h).2] at hmem
  exact (mem_joinWith_singleton hne).1 hmem

/-! ## Labels -/

/-- A label ends before a colon, and the value stands behind it. -/
theorem eq_of_label? {depth : Nat} {label rest : List Piece}
    (h : label? depth ps = some (label, rest)) : ps = label ++ .char ':' :: rest := by
  have push {q : Piece} {found : Option (List Piece × List Piece)} {label rest : List Piece}
      (h : label?.push q found = some (label, rest)) :
      ∃ l, found = some (l, rest) ∧ label = q :: l := by
    obtain ⟨⟨l, r⟩, hl, he⟩ := Option.map_eq_some_iff.1 h
    obtain ⟨rfl, rfl⟩ := Prod.mk.inj he
    exact ⟨l, hl, rfl⟩
  fun_induction label? depth ps generalizing label with
  | case1 => cases h
  | case2 ps =>
    obtain ⟨rfl, rfl⟩ := Prod.mk.inj (Option.some.inj h)
    rfl
  | case3 depth ps _ ih =>
    obtain ⟨l, hl, rfl⟩ := push h
    rw [ih hl, List.cons_append]
  | case4 depth ps ih =>
    obtain ⟨l, hl, rfl⟩ := push h
    rw [ih hl, List.cons_append]
  | case5 depth ps ih =>
    obtain ⟨l, hl, rfl⟩ := push h
    rw [ih hl, List.cons_append]
  | case6 depth q ps _ _ _ ih =>
    obtain ⟨l, hl, rfl⟩ := push h
    rw [ih hl, List.cons_append]

/-! ## Unwrapping -/

theorem eq_of_unwrap? {inner : List Piece} (h : unwrap? ps = some inner) :
    ∃ rest, ps = .char '(' :: rest ∧ closesAtEnd 1 rest = true ∧ inner = trim rest.dropLast := by
  unfold unwrap? at h
  split at h
  · next rest =>
    split at h
    · next hclose => exact ⟨rest, rfl, hclose, (Option.some.inj h).symm⟩
    · cases h
  · cases h

/-- The partner of a parenthesis that closes at the end is the last piece. -/
theorem getLast?_of_closesAtEnd {depth : Nat} (h : closesAtEnd depth ps = true) :
    ps.getLast? = some (.char ')') := by
  have next {ps : List Piece} (hlast : ps.getLast? = some (.char ')')) (q : Piece) :
      (q :: ps).getLast? = some (.char ')') := by
    rw [List.getLast?_cons, hlast]
    rfl
  fun_induction closesAtEnd depth ps with
  | case1 => cases h
  | case2 depth ps ih => exact next (ih h) _
  | case3 depth ps _ =>
    obtain rfl := List.isEmpty_iff.1 h
    rfl
  | case4 depth ps _ ih => exact next (ih h) _
  | case5 depth q ps _ _ ih => exact next (ih h) _

theorem unwrap_subset (ps : List Piece) : unwrap ps ⊆ ps := by
  fun_induction unwrap ps with
  | case1 ps inner h _ ih =>
    obtain ⟨rest, rfl, -, rfl⟩ := eq_of_unwrap? h
    intro p hp
    exact List.mem_cons_of_mem _ (List.dropLast_subset _ (trim_subset _ (ih hp)))
  | case2 ps h => exact List.Subset.refl ps

/-- A solid piece stays when parentheses around the whole are taken away. -/
theorem mem_unwrap (h : p ∈ ps) (hp : p.IsSolid) : p ∈ unwrap ps := by
  fun_induction unwrap ps with
  | case1 ps inner hinner _ ih =>
    obtain ⟨rest, rfl, hclose, rfl⟩ := eq_of_unwrap? hinner
    have hlast := getLast?_of_closesAtEnd hclose
    obtain ⟨front, rfl⟩ := List.getLast?_eq_some_iff.1 hlast
    refine ih (mem_trim ?_ hp)
    rw [List.dropLast_concat]
    simp only [List.mem_cons, List.mem_append, List.not_mem_nil, or_false] at h
    rcases h with rfl | h | rfl
    · exact absurd hp.2 (by simp)
    · exact h
    · exact absurd hp.2 (by simp)
  | case2 ps hnone => exact h

/-! ## Accepted arguments -/

/-- Arguments that are accepted have an identifier in front, and the others give
a value. -/
theorem readAll_eq_ok {closed : Bool} {read : Invocation}
    (h : readAll defines closed ps = .ok read) :
    ∃ parts, split closed 0 ps = .ok parts ∧
      isIdentifier (shown ((parts.map trim).headD [])) = true ∧
      read.identifier = shown ((parts.map trim).headD []) ∧
      readValue defines (parts.map trim).tail = .ok read.value := by
  rw [readAll] at h
  obtain ⟨parts, hparts, h⟩ := bind_eq_ok h
  dsimp only at h
  split at h
  · cases h
  · split at h
    · cases h
    · next hid =>
      obtain ⟨value, hvalue, h⟩ := bind_eq_ok h
      obtain rfl := Except.ok.inj h
      exact ⟨parts, hparts, by simpa using hid, rfl, hvalue⟩

theorem readValue_eq_ok {args : List (List Piece)} {value : Value}
    (h : readValue defines args = .ok value) :
    (args = [[]] ∧ value = {}) ∨
      ∃ v, readValues defines true {} [] args = .ok v ∧ v.normalizeWildcard = value := by
  unfold readValue at h
  split at h
  · exact .inl ⟨rfl, (Except.ok.inj h).symm⟩
  · exact .inr (map_eq_ok h)

/-- What an argument that is accepted does to the value and to the codes that
wait for a label: it gives a text to some codes, it is the fallback, or it is one
more code. -/
theorem readValues_cons {first : Bool} {value result : Value} {pending : List String}
    {arg : List Piece} {args : List (List Piece)}
    (h : readValues defines first value pending (arg :: args) = .ok result) :
    (∃ label rest codes content value', label? 0 arg = some (label, rest) ∧
        localeCodes (text label) = .ok codes ∧ operand defines rest = .text content ∧
        (pending ++ codes).foldlM (fun v code => v.assign code content) value = .ok value' ∧
        readValues defines false value' [] args = .ok result) ∨
      (∃ content, label? 0 arg = none ∧ operand defines arg = .text content ∧ first = true ∧
        readValues defines false { value with fallback := some content } pending args =
          .ok result) ∨
      (∃ code, label? 0 arg = none ∧ operand defines arg = .word code ∧ first = false ∧
        readValues defines false value (pending ++ [code]) args = .ok result) := by
  rw [readValues] at h
  split at h
  · cases h
  split at h
  · next label rest hlabel =>
    obtain ⟨codes, hcodes, h⟩ := bind_eq_ok h
    dsimp only at h
    split at h
    · next content hoperand =>
      obtain ⟨value', hvalue, h⟩ := bind_eq_ok h
      exact .inl ⟨_, _, _, _, _, hlabel, hcodes, hoperand, hvalue, h⟩
    · cases h
    · cases h
    · cases h
  · next hlabel =>
    split at h
    · next content hoperand =>
      split at h
      · next hfirst => exact .inr (.inl ⟨_, hlabel, hoperand, hfirst, h⟩)
      · cases h
    · next code hoperand =>
      split at h
      · cases h
      · next hfirst => exact .inr (.inr ⟨_, hlabel, hoperand, by simpa using hfirst, h⟩)
    · cases h
    · cases h

/-! ## Characters of names -/

theorem not_isLocaleCode_of_char {s : List Char} {c : Char} (h : c ∈ s)
    (hc : isLocaleChar c = false) (hne : c ≠ '*') : isLocaleCode (String.ofList s) = false := by
  refine eq_false_of_ne_true fun hcode => ?_
  simp only [isLocaleCode, Bool.or_eq_true, beq_iff_eq, Bool.and_eq_true,
    String.toList_ofList] at hcode
  rcases hcode with hwild | ⟨-, hall⟩
  · have hs : s = ['*'] := by rw [← String.toList_ofList (l := s), hwild]; rfl
    rw [hs, List.mem_singleton] at h
    exact hne h
  · have hlocale := List.all_eq_true.1 hall c h
    rw [hc] at hlocale
    cases hlocale

theorem not_isIdentifier_of_char {s : List Char} {c : Char} (h : c ∈ s)
    (hc : isNameChar c = false) : isIdentifier (String.ofList s) = false := by
  refine eq_false_of_ne_true fun hid => ?_
  have hname := isNameChar_of_mem_identifier hid (String.toList_ofList.symm.subst h)
  rw [hc] at hname
  cases hname

/-! ## Foreign characters -/

/-- A character that has no meaning outside of the literals of an argument text. -/
def isForeign (c : Char) : Bool :=
  !isNameChar c && !isBlank c && !"*-(),:;".toList.contains c

section

variable {c : Char}

theorem isSolid_of_isForeign (h : isForeign c = true) : (Piece.char c).IsSolid := by
  simp only [isForeign, Bool.and_eq_true, Bool.not_eq_true'] at h
  refine ⟨h.1.2, fun hmem => ?_⟩
  have hc : c = '(' ∨ c = ')' ∨ c = ',' ∨ c = ':' := by simpa using hmem
  rcases hc with rfl | rfl | rfl | rfl <;> exact absurd h.2 (by decide)

theorem mem_text (h : .char c ∈ ps) : c ∈ text ps :=
  List.mem_flatMap.2 ⟨_, h, List.mem_singleton_self c⟩

theorem not_isLocaleChar_of_isForeign (h : isForeign c = true) : isLocaleChar c = false := by
  simp only [isForeign, Bool.and_eq_true, Bool.not_eq_true'] at h
  rw [isLocaleChar, h.1.1, Bool.false_or, beq_eq_false_iff_ne]
  rintro rfl
  exact absurd h.2 (by decide)

theorem not_isLocaleCode_of_mem {s : List Char} (h : c ∈ s) (hc : isForeign c = true) :
    isLocaleCode (String.ofList s) = false := by
  refine not_isLocaleCode_of_char h (not_isLocaleChar_of_isForeign hc) ?_
  rintro rfl
  exact absurd hc (by decide)

theorem not_isIdentifier_of_mem {s : List Char} (h : c ∈ s) (hc : isForeign c = true) :
    isIdentifier (String.ofList s) = false := by
  simp only [isForeign, Bool.and_eq_true, Bool.not_eq_true'] at hc
  exact not_isIdentifier_of_char h hc.1.1

theorem segments?_eq_none {word : List Char} (h : .char c ∈ ps) (hc : isForeign c = true) :
    segments? defines word ps = none := by
  have hchar := hc
  simp only [isForeign, Bool.and_eq_true, Bool.not_eq_true'] at hchar
  obtain ⟨⟨hname, hblank⟩, -⟩ := hchar
  fun_induction segments? defines word ps with
  | case1 => cases h
  | case2 word d ps hd ih =>
    rcases List.mem_cons.1 h with h | h
    · obtain rfl := Piece.char.inj h
      exact absurd (hd.symm.trans hname) (by decide)
    · exact ih h
  | case3 word d ps _ hd ih =>
    rcases List.mem_cons.1 h with h | h
    · obtain rfl := Piece.char.inj h
      exact absurd (hd.symm.trans hblank) (by decide)
    · rw [ih h]
      rfl
  | case4 => rfl
  | case5 word body ps ih =>
    rcases List.mem_cons.1 h with h | h
    · cases h
    · rw [ih h]
      rfl
  | case6 => rfl

/-- An operand with a foreign character is neither a text nor a word. -/
theorem operand_of_isForeign (h : .char c ∈ ps) (hc : isForeign c = true) :
    ∃ shown, operand defines ps = .other shown := by
  have hsolid := isSolid_of_isForeign hc
  have hmem : .char c ∈ unwrap (trim ps) := mem_unwrap (mem_trim h hsolid) hsolid
  have hne : (unwrap (trim ps)).isEmpty = false := by
    cases hu : unwrap (trim ps) with
    | nil => rw [hu] at hmem; cases hmem
    | cons => rfl
  refine ⟨shown (unwrap (trim ps)), ?_⟩
  simp only [operand, hne, shown, not_isLocaleCode_of_mem (mem_text hmem) hc, Bool.false_eq_true,
    if_false, segments?_eq_none hmem hc]

end

/-- The codes of a label are the trimmed parts between its semicolons. -/
theorem localeCodes_eq_ok {label : List Char} {codes : List String}
    (h : localeCodes label = .ok codes) :
    (∀ part ∈ cutAt ';' label, isLocaleCode (String.ofList (FlashStrings.trim part)) = true) ∧
      ∀ code ∈ codes, isLocaleCode code = true := by
  have hcode {part : List Char} {code : String}
      (h : (if isLocaleCode (String.ofList (FlashStrings.trim part)) = true then
        Except.ok (String.ofList (FlashStrings.trim part)) else
        .error (ArgumentError.invalidLocaleCode (String.ofList (FlashStrings.trim part)))) =
        .ok code) :
      isLocaleCode (String.ofList (FlashStrings.trim part)) = true ∧
        String.ofList (FlashStrings.trim part) = code := by
    split at h
    · next hc => exact ⟨hc, Except.ok.inj h⟩
    · cases h
  obtain ⟨hto, hfrom⟩ := mapM_eq_ok h
  constructor
  · intro part hpart
    obtain ⟨code, -, hpc⟩ := hto part hpart
    exact (hcode hpc).1
  · intro code hmem
    obtain ⟨part, -, hpc⟩ := hfrom code hmem
    obtain ⟨hlocale, rfl⟩ := hcode hpc
    exact hlocale

variable {c : Char}

theorem localeCodes_ne_ok {label : List Char} (h : c ∈ label) (hc : isForeign c = true)
    (codes : List String) : localeCodes label ≠ .ok codes := by
  intro hcodes
  have hsemicolon : c ≠ ';' := by
    rintro rfl
    exact absurd hc (by decide)
  rw [← joinWith_cutAt ';' label, mem_joinWith_singleton hsemicolon] at h
  obtain ⟨part, hpart, hmem⟩ := h
  have hblank : FlashStrings.isBlank c = false := (isSolid_of_isForeign hc).1
  have htrim : c ∈ FlashStrings.trim part := mem_trimWhile hmem hblank
  have hcode := (localeCodes_eq_ok hcodes).1 part hpart
  rw [not_isLocaleCode_of_mem htrim hc] at hcode
  cases hcode

theorem not_mem_of_readValues {first : Bool} {value result : Value} {pending : List String}
    {args : List (List Piece)} (hc : isForeign c = true)
    (h : readValues defines first value pending args = .ok result) :
    ∀ arg ∈ args, .char c ∉ arg := by
  induction args generalizing first value pending with
  | nil => exact nofun
  | cons arg args ih =>
    have other {ps : List Piece} (hmem : .char c ∈ ps) : (∀ content, operand defines ps ≠
        .text content) ∧ ∀ code, operand defines ps ≠ .word code := by
      obtain ⟨shown, hother⟩ := @operand_of_isForeign defines _ _ hmem hc
      rw [hother]
      exact ⟨nofun, nofun⟩
    rcases readValues_cons h with ⟨label, rest, codes, content, value', hlabel, hcodes, hoperand,
      -, hargs⟩ | ⟨content, -, hoperand, -, hargs⟩ | ⟨code, -, hoperand, -, hargs⟩
    · refine List.forall_mem_cons.2 ⟨fun hmem => ?_, ih hargs⟩
      rw [eq_of_label? hlabel, List.mem_append, List.mem_cons] at hmem
      rcases hmem with hmem | hcolon | hmem
      · exact localeCodes_ne_ok (mem_text hmem) hc codes hcodes
      · exact absurd (isSolid_of_isForeign hc).2 (by simp [hcolon])
      · exact (other hmem).1 content hoperand
    · exact List.forall_mem_cons.2 ⟨fun hmem => (other hmem).1 content hoperand, ih hargs⟩
    · exact List.forall_mem_cons.2 ⟨fun hmem => (other hmem).2 code hoperand, ih hargs⟩

/-- Arguments with a foreign character outside of their literals are refused. -/
theorem readAll_ne_ok {closed : Bool} (h : .char c ∈ ps) (hc : isForeign c = true)
    (read : Invocation) : readAll defines closed ps ≠ .ok read := by
  intro hread
  obtain ⟨parts, hparts, hid, -, hvalue⟩ := readAll_eq_ok hread
  obtain ⟨part, hpart, hmem⟩ := exists_mem_of_split hparts h (isSolid_of_isForeign hc)
  have hmem : .char c ∈ trim part := mem_trim hmem (isSolid_of_isForeign hc)
  cases parts with
  | nil => cases hpart
  | cons front parts =>
    rcases List.mem_cons.1 hpart with rfl | hpart
    · have hfront : isIdentifier (shown (trim part)) = true := hid
      rw [shown, not_isIdentifier_of_mem (mem_text hmem) hc] at hfront
      cases hfront
    · have harg : trim part ∈ parts.map trim := List.mem_map_of_mem hpart
      rcases readValue_eq_ok hvalue with ⟨hone, -⟩ | ⟨value, hvalues, -⟩
      · rw [List.map_cons, List.tail_cons] at hone
        rw [hone, List.mem_singleton] at harg
        rw [harg] at hmem
        cases hmem
      · exact not_mem_of_readValues hc hvalues _ harg hmem

end Argument

end FlashStrings
