import FlashStrings.Proofs.Invocation.ReadBack
import FlashStrings.Proofs.Invocation.Tokens

/-!
# Codes grouped by commas

A label may be written in groups of its codes with commas between them (`grouped`).  Behind
the first value an argument that is a single code waits for the label that follows
(`Argument.readValues_code`), so single codes in front of commas are read like codes in
front of semicolons (`Argument.readValues_grouped`).

A group of several codes in front of a comma is no value (`Argument.readValues_several`),
and neither is a word in the place of the first value (`Argument.readValues_first`).  So an
accepted invocation is read the same in groups, unless one of them is refused
(`refusedGroup?`, `parseArguments_grouped`).
-/

namespace FlashStrings

/-- Groups of codes with this mark behind each, and then the last codes of a label. -/
def grouped (mark : Char) (groups : List (List Char)) (last : List Char) : List Char :=
  groups.flatMap (· ++ [mark]) ++ last

/-- The group that is refused, of those in front of commas: the first one in the place of
the first value, and elsewhere the first one of several codes. -/
def refusedGroup? (first : Bool) (groups : List (List Char)) : Option (List Char) :=
  if first then groups.head? else groups.find? (·.contains ';')

/-- The parts between the semicolons are locale codes with blanks around them. -/
def IsLabel (label : List Char) : Prop :=
  ∀ part ∈ cutAt ';' label, isLocaleCode (String.ofList (trim part)) = true

/-- The codes of a label. -/
def codesOf (label : List Char) : List String :=
  (cutAt ';' label).map fun part => String.ofList (trim part)

variable {label group last : List Char} {groups : List (List Char)}

/-! ## Groups -/

theorem grouped_cons (mark : Char) (group : List Char) (groups : List (List Char))
    (last : List Char) :
    grouped mark (group :: groups) last = group ++ mark :: grouped mark groups last := by
  simp [grouped]

theorem isLabel_grouped_iff :
    IsLabel (grouped ';' groups last) ↔ (∀ group ∈ groups, IsLabel group) ∧ IsLabel last := by
  induction groups with
  | nil => exact ⟨fun h => ⟨List.forall_mem_nil _, h⟩, fun h => h.2⟩
  | cons group groups ih =>
    have hcons : IsLabel (grouped ';' (group :: groups) last) ↔
        IsLabel group ∧ IsLabel (grouped ';' groups last) := by
      rw [grouped_cons, IsLabel, cutAt_append_cons]
      exact List.forall_mem_append
    rw [hcons, ih, List.forall_mem_cons, and_assoc]

theorem codesOf_of_notMem (h : ';' ∉ group) : codesOf group = [String.ofList (trim group)] := by
  rw [codesOf, cutAt_of_notMem h]
  rfl

/-- Groups of one code give their codes. -/
theorem codesOf_grouped (h : ∀ group ∈ groups, ';' ∉ group) (last : List Char) :
    codesOf (grouped ';' groups last) =
      groups.map (fun group => String.ofList (trim group)) ++ codesOf last := by
  induction groups with
  | nil => rfl
  | cons group groups ih =>
    obtain ⟨hgroup, hgroups⟩ := List.forall_mem_cons.1 h
    have hcodes : codesOf (grouped ';' (group :: groups) last) =
        codesOf group ++ codesOf (grouped ';' groups last) := by
      rw [grouped_cons, codesOf, cutAt_append_cons, List.map_append]
      rfl
    rw [hcodes, ih hgroups, codesOf_of_notMem hgroup]
    rfl

/-! ## Characters of a label -/

theorem isWordChar_of_mem_part {part : List Char} {c : Char}
    (h : isLocaleCode (String.ofList (trim part)) = true) (hc : c ∈ part) :
    isBlank c = true ∨ Argument.isWordChar c = true := by
  cases hblank : isBlank c with
  | true => exact .inl rfl
  | false =>
    refine .inr (Argument.isWordChar_of_mem h ?_)
    rw [String.toList_ofList]
    exact mem_trimWhile hc hblank

/-- A mark that no code has does not stand in a label. -/
theorem IsLabel.notMem (h : IsLabel label) {d : Char} (hd : d ≠ ';') (hblank : isBlank d = false)
    (hword : Argument.isWordChar d = false) : d ∉ label := by
  intro hmem
  rw [← joinWith_cutAt ';' label, mem_joinWith_singleton hd] at hmem
  obtain ⟨part, hpart, hmem⟩ := hmem
  rcases isWordChar_of_mem_part (h part hpart) hmem with hc | hc
  · exact absurd (hblank.symm.trans hc) (by decide)
  · exact absurd (hword.symm.trans hc) (by decide)

theorem IsLabel.notMem_marks (h : IsLabel label) :
    ∀ d ∈ ['(', ')', ',', ':', '"', '\''], d ∉ label := by
  intro d hd
  refine h.notMem ?_ ?_ ?_
  all_goals
    simp only [List.mem_cons, List.not_mem_nil, or_false] at hd
    rcases hd with rfl | rfl | rfl | rfl | rfl | rfl <;> decide

theorem IsLabel.trim_ne_nil (h : IsLabel label) : trim label ≠ [] := by
  intro hnil
  have hmark : ';' ∉ label := fun hmem => by
    have hin : ';' ∈ trim label := mem_trimWhile hmem rfl
    rw [hnil] at hin
    cases hin
  rw [IsLabel, cutAt_of_notMem hmark] at h
  have hcode := h label List.mem_cons_self
  rw [hnil] at hcode
  cases hcode

/-- What is trimmed of a label has none of its marks. -/
theorem IsLabel.notMem_trim (h : IsLabel label) {d : Char}
    (hd : d ∈ ['(', ')', ',', ':', '"', '\'']) : d ∉ trim label := fun hmem =>
  h.notMem_marks d hd (mem_of_mem_trimWhile hmem)

/-- The groups of a label have no quotes, whatever mark is between them. -/
theorem notMem_grouped {mark d : Char} (h : IsLabel (grouped ';' groups last)) (hd : d ≠ mark)
    (hmarks : d ∈ ['(', ')', ',', ':', '"', '\'']) : d ∉ grouped mark groups last := by
  obtain ⟨hgroups, hlast⟩ := isLabel_grouped_iff.1 h
  intro hmem
  rcases List.mem_append.1 hmem with hmem | hmem
  · obtain ⟨group, hgroup, hmem⟩ := List.mem_flatMap.1 hmem
    rcases List.mem_append.1 hmem with hmem | hmem
    · exact (hgroups group hgroup).notMem_marks d hmarks hmem
    · exact hd (List.mem_singleton.1 hmem)
  · exact hlast.notMem_marks d hmarks hmem

/-! ## Blanks around a mark -/

section Trim

variable {α : Type} {p : α → Bool} {a : α}

theorem dropWhile_append_cons (ha : p a = false) (s t : List α) :
    (s ++ a :: t).dropWhile p = s.dropWhile p ++ a :: t := by
  rw [List.dropWhile_append, List.dropWhile_cons_of_neg (by simp [ha])]
  split
  · next hempty => rw [List.isEmpty_iff.1 hempty, List.nil_append]
  · rfl

/-- What is not trimmed parts what is trimmed in front of it and behind it. -/
theorem trimWhile_append_cons (ha : p a = false) (s t : List α) :
    trimWhile p (s ++ a :: t) = s.dropWhile p ++ a :: dropWhileEnd p t := by
  have hreverse : (s.dropWhile p ++ a :: t).reverse =
      t.reverse ++ a :: (s.dropWhile p).reverse := by
    simp
  rw [trimWhile, dropWhile_append_cons ha, dropWhileEnd, hreverse, dropWhile_append_cons ha,
    dropWhileEnd]
  simp

end Trim

/-- Blanks in front of a label are blanks in front of its first code. -/
theorem map_trim_cutAt_dropWhile (s : List Char) :
    (cutAt ';' (s.dropWhile isBlank)).map trim = (cutAt ';' s).map trim := by
  induction s with
  | nil => rfl
  | cons c s ih =>
    cases hc : isBlank c with
    | false => rw [List.dropWhile_cons_of_neg (by simp [hc])]
    | true =>
      have hne : c ≠ ';' := by
        rintro rfl
        cases hc
      obtain ⟨part, parts, hs⟩ := List.exists_cons_of_ne_nil (cutAt_ne_nil ';' s)
      rw [List.dropWhile_cons_of_pos hc, ih, cutAt, hs]
      simp only [hne, if_false, List.map_cons, List.cons.injEq, and_true]
      rw [trim, trim, trimWhile, trimWhile, List.dropWhile_cons_of_pos hc]

namespace Argument

variable {defines : Defines} {p : Piece} {ps qs : List Piece}

/-- A valid label has its codes, whatever blanks are left in front of it. -/
theorem localeCodes_dropWhile (h : IsLabel label) :
    localeCodes (label.dropWhile FlashStrings.isBlank) = .ok (codesOf label) := by
  have hmap : ∀ parts : List (List Char),
      (∀ part ∈ parts, isLocaleCode (String.ofList part) = true) →
      parts.mapM (fun part =>
        if isLocaleCode (String.ofList part) then Except.ok (String.ofList part)
        else .error (ArgumentError.invalidLocaleCode (String.ofList part))) =
        .ok (parts.map String.ofList) := by
    intro parts hparts
    induction parts with
    | nil => rfl
    | cons part parts ih =>
      obtain ⟨hpart, hparts⟩ := List.forall_mem_cons.1 hparts
      rw [List.mapM_cons, ih hparts, if_pos hpart]
      rfl
  have htrim := hmap ((cutAt ';' label).map FlashStrings.trim) fun part hpart => by
    obtain ⟨whole, hwhole, rfl⟩ := List.mem_map.1 hpart
    exact h whole hwhole
  rw [← map_trim_cutAt_dropWhile, List.mapM_map] at htrim
  rw [localeCodes]
  refine htrim.trans ?_
  rw [map_trim_cutAt_dropWhile, List.map_map]
  rfl

/-! ## Splitting -/

/-- Only pieces without an unclosed literal behind them are split. -/
theorem closed_of_split {closed : Bool} {depth : Nat} {parts : List (List Piece)}
    (h : split closed depth ps = .ok parts) : closed = true := by
  fun_induction split closed depth ps generalizing parts with
  | case1 => cases h
  | case2 => cases h
  | case3 _ hclosed => simpa using hclosed
  | case4 depth ps ih =>
    obtain ⟨parts, hparts, rfl⟩ := map_eq_ok h
    exact ih hparts
  | case5 => cases h
  | case6 depth ps ih =>
    obtain ⟨parts, hparts, rfl⟩ := map_eq_ok h
    exact ih hparts
  | case7 ps ih =>
    obtain ⟨parts, hparts, rfl⟩ := map_eq_ok h
    exact ih hparts
  | case8 depth ps _ ih =>
    obtain ⟨parts, hparts, rfl⟩ := map_eq_ok h
    exact ih hparts
  | case9 depth p ps _ _ _ ih =>
    obtain ⟨parts, hparts, rfl⟩ := map_eq_ok h
    exact ih hparts

theorem pushFirst_append (p : Piece) {parts : List (List Piece)} (h : parts ≠ [])
    (others : List (List Piece)) :
    pushFirst p (parts ++ others) = pushFirst p parts ++ others := by
  obtain ⟨part, parts, rfl⟩ := List.exists_cons_of_ne_nil h
  rfl

/-- What stands in front of a comma is split on its own. -/
theorem split_append_comma {depth : Nat} {parts : List (List Piece)}
    (h : split true depth ps = .ok parts) (closed : Bool) (qs : List Piece) :
    split closed depth (ps ++ .char ',' :: qs) = (split closed 0 qs).map (parts ++ ·) := by
  have push {ps : List Piece} {depth : Nat} {p : Piece} {parts : List (List Piece)}
      (hsplit : split true depth ps = .ok parts)
      (ih : split closed depth (ps ++ .char ',' :: qs) = (split closed 0 qs).map (parts ++ ·)) :
      (split closed depth (ps ++ .char ',' :: qs)).map (pushFirst p) =
        (split closed 0 qs).map (pushFirst p parts ++ ·) := by
    rw [ih]
    cases split closed 0 qs with
    | error e => rfl
    | ok others =>
      exact congrArg Except.ok (pushFirst_append p (joinWith_of_split hsplit).1 others)
  fun_induction split true depth ps generalizing parts with
  | case1 _ hclosed => cases hclosed
  | case2 => cases h
  | case3 depth _ hdepth =>
    obtain rfl := Except.ok.inj h
    rw [List.nil_append, split, if_pos (not_not.1 hdepth)]
    rfl
  | case4 depth ps ih =>
    obtain ⟨parts, hparts, rfl⟩ := map_eq_ok h
    rw [List.cons_append, split, push hparts (ih hparts)]
  | case5 => cases h
  | case6 depth ps ih =>
    obtain ⟨parts, hparts, rfl⟩ := map_eq_ok h
    rw [List.cons_append, split, push hparts (ih hparts)]
  | case7 ps ih =>
    obtain ⟨parts, hparts, rfl⟩ := map_eq_ok h
    rw [List.cons_append, split, if_pos rfl, ih hparts]
    cases split closed 0 qs <;> rfl
  | case8 depth ps hdepth ih =>
    obtain ⟨parts, hparts, rfl⟩ := map_eq_ok h
    rw [List.cons_append, split, if_neg hdepth, push hparts (ih hparts)]
  | case9 depth p ps hopen hclose hcomma ih =>
    obtain ⟨parts, hparts, rfl⟩ := map_eq_ok h
    rw [List.cons_append, split, push hparts (ih hparts)]
    · exact hopen
    · exact hclose
    · exact hcomma

/-- Pieces that are no marks belong to the first part. -/
theorem split_append_front (closed : Bool) {front : List Piece}
    (h : ∀ d ∈ ['(', ')', ','], Piece.char d ∉ front) (qs : List Piece) :
    split closed 0 (front ++ qs) =
      (split closed 0 qs).map fun parts => front.foldr pushFirst parts := by
  induction front with
  | nil =>
    rw [List.nil_append]
    cases split closed 0 qs <;> rfl
  | cons p front ih =>
    rw [List.cons_append, split, ih fun d hd hp => h d hd (List.mem_cons_of_mem _ hp)]
    · cases split closed 0 qs <;> rfl
    all_goals
      rintro rfl
      exact h _ (by simp) List.mem_cons_self

theorem foldr_pushFirst (front part : List Piece) (parts : List (List Piece)) :
    front.foldr pushFirst (part :: parts) = (front ++ part) :: parts := by
  induction front with
  | nil => rfl
  | cons p front ih => rw [List.foldr_cons, ih]; rfl

/-- Groups in front of commas are parts of their own. -/
theorem split_groups {closed : Bool} (h : ∀ group ∈ groups, IsLabel group) (qs : List Piece) :
    split closed 0 ((groups.flatMap (· ++ [','])).map Piece.char ++ qs) =
      (split closed 0 qs).map (groups.map (·.map .char) ++ ·) := by
  induction groups with
  | nil =>
    show split closed 0 qs = (split closed 0 qs).map ([] ++ ·)
    cases split closed 0 qs <;> rfl
  | cons group groups ih =>
    obtain ⟨hgroup, hgroups⟩ := List.forall_mem_cons.1 h
    have hmarks : ∀ d ∈ ['(', ')', ','], Piece.char d ∉ group.map Piece.char := by
      intro d hd hmem
      obtain ⟨c, hc, heq⟩ := List.mem_map.1 hmem
      obtain rfl := Piece.char.inj heq
      refine hgroup.notMem_marks c ?_ hc
      simp only [List.mem_cons, List.not_mem_nil, or_false] at hd ⊢
      tauto
    have hsplit : split true 0 (group.map Piece.char) = .ok [group.map .char] := by
      have hfront := split_append_front true hmarks []
      rw [List.append_nil] at hfront
      rw [hfront]
      show Except.ok ((group.map Piece.char).foldr pushFirst [[]]) = _
      rw [foldr_pushFirst, List.append_nil]
    have htext : ((group :: groups).flatMap (· ++ [','])).map Piece.char ++ qs =
        group.map .char ++ .char ',' :: ((groups.flatMap (· ++ [','])).map .char ++ qs) := by
      simp
    rw [htext, split_append_comma hsplit, ih hgroups]
    cases split closed 0 qs <;> rfl

/-! ## Arguments -/

/-- Arguments are read alike when what is behind the first ones is. -/
theorem readValues_append {args xs ys : List (List Piece)} (hne : args ≠ [])
    (h : ∀ value pending, readValues defines false value pending xs =
      readValues defines false value pending ys) (first : Bool) (value : Value)
    (pending : List String) :
    readValues defines first value pending (args ++ xs) =
      readValues defines first value pending (args ++ ys) := by
  induction args generalizing first value pending with
  | nil => exact absurd rfl hne
  | cons arg args ih =>
    have hrest : ∀ value pending, readValues defines false value pending (args ++ xs) =
        readValues defines false value pending (args ++ ys) := by
      intro value pending
      cases args with
      | nil => exact h value pending
      | cons => exact ih (List.cons_ne_nil _ _) false value pending
    rw [List.cons_append, List.cons_append, readValues, readValues]
    simp only [hrest]

/-- An argument that is accepted leads to a value and to codes that wait, whatever
follows it. -/
theorem exists_readValues_cons {first : Bool} {value result : Value} {pending : List String}
    {arg : List Piece} {args : List (List Piece)}
    (h : readValues defines first value pending (arg :: args) = .ok result) :
    ∃ value' pending', ∀ others, readValues defines first value pending (arg :: others) =
      readValues defines false value' pending' others := by
  have hempty : arg.isEmpty = false := by
    refine eq_false_of_ne_true fun hempty => ?_
    rw [readValues, if_pos hempty] at h
    cases h
  rcases readValues_cons h with ⟨label, rest, codes, content, value', hlabel, hcodes, hoperand,
    hvalue, -⟩ | ⟨content, hlabel, hoperand, rfl, -⟩ | ⟨code, hlabel, hoperand, rfl, -⟩
  · refine ⟨value', [], fun others => ?_⟩
    rw [readValues]
    simp only [hempty, hlabel, hcodes, hoperand, Bool.false_eq_true, if_false]
    show ((pending ++ codes).foldlM (fun v code => v.assign code content) value >>= fun value =>
      readValues defines false value [] others) = _
    rw [hvalue]
    rfl
  · refine ⟨{ value with fallback := some content }, pending, fun others => ?_⟩
    rw [readValues]
    simp only [hempty, hlabel, hoperand, Bool.false_eq_true, if_false, if_true]
  · refine ⟨value, pending ++ [code], fun others => ?_⟩
    rw [readValues]
    simp only [hempty, hlabel, hoperand, Bool.false_eq_true, if_false]

/-- So do arguments that are accepted. -/
theorem exists_readValues_append {first : Bool} {value result : Value} {pending : List String}
    {args more : List (List Piece)} (hne : args ≠ [])
    (h : readValues defines first value pending (args ++ more) = .ok result) :
    ∃ value' pending', ∀ others, readValues defines first value pending (args ++ others) =
      readValues defines false value' pending' others := by
  induction args generalizing first value pending with
  | nil => exact absurd rfl hne
  | cons arg args ih =>
    obtain ⟨value', pending', hcons⟩ := exists_readValues_cons h
    rw [List.cons_append, hcons] at h
    cases args with
    | nil => exact ⟨value', pending', hcons⟩
    | cons other args =>
      obtain ⟨value'', pending'', happend⟩ := ih (List.cons_ne_nil other args) h
      exact ⟨value'', pending'', fun others => (hcons _).trans (happend others)⟩

theorem trim_map_char (s : List Char) :
    trim (s.map .char) = (FlashStrings.trim s).map .char := by
  have hdrop : ∀ s : List Char, (s.map Piece.char).dropWhile Piece.isBlank =
      (s.dropWhile FlashStrings.isBlank).map .char := fun s => List.dropWhile_map
  rw [trim, trimWhile, hdrop, dropWhileEnd, ← List.map_reverse, hdrop, ← List.map_reverse]
  rfl

theorem unwrap_map_char {s : List Char} (h : '(' ∉ s) :
    unwrap (s.map Piece.char) = s.map .char := by
  refine unwrap_of_none (Option.eq_none_iff_forall_not_mem.2 fun inner hinner => ?_)
  obtain ⟨rest, heq, -⟩ := eq_of_unwrap? hinner
  obtain ⟨c, hc, hopen⟩ := List.mem_map.1 (heq ▸ List.mem_cons_self)
  exact h (Piece.char.inj hopen ▸ hc)

/-- A code that no define names is a word. -/
theorem operand_of_isLocaleCode {code : List Char}
    (hcode : isLocaleCode (String.ofList code) = true)
    (hdefine : defines.get? (String.ofList code) = none) :
    operand defines (code.map .char) = .word (String.ofList code) := by
  have hword : ∀ c ∈ code, isWordChar c = true := fun c hc =>
    isWordChar_of_mem hcode (by rwa [String.toList_ofList])
  have hne : code ≠ [] := by
    rintro rfl
    cases hcode
  have htrim : trim (code.map .char) = code.map .char := by
    rw [trim_map_char, FlashStrings.trim,
      (Spaced.single FlashStrings.isBlank code).trimWhile_singleton hne fun d hd =>
        isBlank_of_isWordChar (hword d hd)]
  have hunwrap : unwrap (code.map .char) = code.map .char :=
    unwrap_map_char fun hopen => absurd (hword _ hopen) (by decide)
  have hshown : shown (code.map .char) = String.ofList code :=
    congrArg String.ofList (text_map_char _)
  have hempty : (code.map Piece.char).isEmpty = false := by simpa using hne
  simp only [operand, htrim, hunwrap, hshown, hcode, hdefine, hempty, Bool.false_eq_true,
    if_false, if_true]

/-- A character that is neither of a name nor blank makes no value. -/
theorem segments?_of_mem {s : List Char} {c : Char} (h : c ∈ s) (hname : isNameChar c = false)
    (hblank : FlashStrings.isBlank c = false) (word : List Char) :
    segments? defines word (s.map .char) = none := by
  induction s generalizing word with
  | nil => cases h
  | cons d s ih =>
    rw [List.map_cons, segments?]
    rcases List.mem_cons.1 h with rfl | h
    · simp only [hname, hblank, Bool.false_eq_true, if_false]
    · rw [ih h, ih h]
      split
      · rfl
      split <;> rfl

/-- Several codes are no value. -/
theorem operand_of_several (h : IsLabel group) (hmark : ';' ∈ group) :
    operand defines ((FlashStrings.trim group).map .char) =
      .other (String.ofList (FlashStrings.trim group)) := by
  have hmem : ';' ∈ FlashStrings.trim group := mem_trimWhile hmark rfl
  have htrim : trim ((FlashStrings.trim group).map .char) =
      (FlashStrings.trim group).map .char := by
    rw [trim_map_char, FlashStrings.trim, FlashStrings.trim, trimWhile_trimWhile]
  have hunwrap : unwrap ((FlashStrings.trim group).map .char) =
      (FlashStrings.trim group).map .char := unwrap_map_char (h.notMem_trim (by simp))
  have hshown : shown ((FlashStrings.trim group).map .char) =
      String.ofList (FlashStrings.trim group) := congrArg String.ofList (text_map_char _)
  have hempty : ((FlashStrings.trim group).map Piece.char).isEmpty = false := by
    simpa using h.trim_ne_nil
  have hcode : isLocaleCode (String.ofList (FlashStrings.trim group)) = false := by
    refine eq_false_of_ne_true fun hcode => ?_
    have hword := isWordChar_of_mem hcode (by rwa [String.toList_ofList])
    exact absurd hword (by decide)
  simp only [operand, htrim, hunwrap, hshown, hcode, hempty, Bool.false_eq_true, if_false,
    segments?_of_mem hmem rfl rfl]

/-- A group of codes has no label. -/
theorem label?_group (h : IsLabel group) :
    label? 0 ((FlashStrings.trim group).map Piece.char) = none := by
  refine label?_eq_none fun d hd hmem => ?_
  obtain ⟨c, hc, heq⟩ := List.mem_map.1 hmem
  obtain rfl := Piece.char.inj heq
  refine h.notMem_trim ?_ hc
  simp only [List.mem_cons, List.not_mem_nil, or_false] at hd ⊢
  tauto

/-- The operand of a group of codes decides what happens to it. -/
theorem readValues_group (h : IsLabel group) (first : Bool) (value : Value)
    (pending : List String) (args : List (List Piece)) :
    readValues defines first value pending (trim (group.map .char) :: args) =
      match operand defines ((FlashStrings.trim group).map .char) with
      | .text content =>
        if first then readValues defines false { value with fallback := some content } pending args
        else .error (.unexpectedValue (String.ofList (FlashStrings.trim group)))
      | .word code =>
        if first then .error (.invalidValue code)
        else readValues defines false value (pending ++ [code]) args
      | .other shown => .error (.invalidValue shown)
      | .nothing => .error .emptyArgument := by
  have hempty : ((FlashStrings.trim group).map Piece.char).isEmpty = false := by
    simpa using h.trim_ne_nil
  have hshown : shown ((FlashStrings.trim group).map .char) =
      String.ofList (FlashStrings.trim group) := congrArg String.ofList (text_map_char _)
  rw [trim_map_char]
  cases hoperand : operand defines ((FlashStrings.trim group).map .char) <;>
    simp [readValues, hempty, label?_group h, hshown, hoperand]

/-- A single code is a word. -/
theorem operand_group (h : IsLabel group) (hsingle : ';' ∉ group)
    (hdefine : ∀ code ∈ codesOf group, defines.get? code = none) :
    operand defines ((FlashStrings.trim group).map .char) =
      .word (String.ofList (FlashStrings.trim group)) := by
  rw [IsLabel, cutAt_of_notMem hsingle] at h
  refine operand_of_isLocaleCode (h group List.mem_cons_self) (hdefine _ ?_)
  rw [codesOf_of_notMem hsingle]
  exact List.mem_cons_self

/-- A single code behind the first value waits for the label that follows. -/
theorem readValues_code (h : IsLabel group) (hsingle : ';' ∉ group)
    (hdefine : ∀ code ∈ codesOf group, defines.get? code = none) (value : Value)
    (pending : List String) (args : List (List Piece)) :
    readValues defines false value pending (trim (group.map .char) :: args) =
      readValues defines false value
        (pending ++ [String.ofList (FlashStrings.trim group)]) args := by
  rw [readValues_group h]
  simp only [operand_group h hsingle hdefine, Bool.false_eq_true, if_false]

/-- Several codes without a label are refused. -/
theorem readValues_several (h : IsLabel group) (hmark : ';' ∈ group) (first : Bool)
    (value : Value) (pending : List String) (args : List (List Piece)) :
    readValues defines first value pending (trim (group.map .char) :: args) =
      .error (.invalidValue (String.ofList (FlashStrings.trim group))) := by
  rw [readValues_group h]
  simp only [operand_of_several h hmark]

/-- Codes without a label are refused in the place of the first value. -/
theorem readValues_first (h : IsLabel group)
    (hdefine : ∀ code ∈ codesOf group, defines.get? code = none) (value : Value)
    (pending : List String) (args : List (List Piece)) :
    readValues defines true value pending (trim (group.map .char) :: args) =
      .error (.invalidValue (String.ofList (FlashStrings.trim group))) := by
  by_cases hmark : ';' ∈ group
  · exact readValues_several h hmark true value pending args
  · rw [readValues_group h]
    simp only [operand_group h hmark hdefine, if_true]

/-- Single codes behind the first value wait for the label that follows. -/
theorem readValues_codes (h : ∀ group ∈ groups, IsLabel group)
    (hsingle : ∀ group ∈ groups, ';' ∉ group)
    (hdefines : ∀ group ∈ groups, ∀ code ∈ codesOf group, defines.get? code = none)
    (value : Value) (pending : List String) (args : List (List Piece)) :
    readValues defines false value pending ((groups.map (·.map .char)).map trim ++ args) =
      readValues defines false value
        (pending ++ groups.map fun group => String.ofList (FlashStrings.trim group)) args := by
  induction groups generalizing pending with
  | nil => exact congrArg (readValues defines false value · args) (List.append_nil pending).symm
  | cons group groups ih =>
    obtain ⟨hgroup, hgroups⟩ := List.forall_mem_cons.1 h
    obtain ⟨hone, hsingle⟩ := List.forall_mem_cons.1 hsingle
    obtain ⟨hdefine, hdefines⟩ := List.forall_mem_cons.1 hdefines
    rw [List.map_cons, List.map_cons, List.cons_append, readValues_code hgroup hone hdefine,
      ih hgroups hsingle hdefines, List.append_assoc]
    rfl

/-- Behind the first value the first group of several codes is refused. -/
theorem readValues_refused (h : ∀ group ∈ groups, IsLabel group)
    (hdefines : ∀ group ∈ groups, ∀ code ∈ codesOf group, defines.get? code = none)
    (hrefused : groups.find? (·.contains ';') = some group) (value : Value)
    (pending : List String) (args : List (List Piece)) :
    readValues defines false value pending ((groups.map (·.map .char)).map trim ++ args) =
      .error (.invalidValue (String.ofList (FlashStrings.trim group))) := by
  obtain ⟨hmark, front, back, rfl, hfront⟩ := List.find?_eq_some_iff_append.1 hrefused
  have hsingle : ∀ group ∈ front, ';' ∉ group := fun group hgroup => by
    simpa using hfront group hgroup
  have hgroup : IsLabel group := h group (by simp)
  rw [List.map_append, List.map_append, List.append_assoc,
    readValues_codes (fun group hgroup => h group (List.mem_append_left _ hgroup)) hsingle
      fun group hgroup => hdefines group (List.mem_append_left _ hgroup)]
  exact readValues_several hgroup (by simpa using hmark) ..

/-- A labelled operand gives its text to the codes that wait and to those of its label. -/
theorem readValues_label (h : IsLabel label) (value : Value) (pending : List String)
    (rest : List Piece) (args : List (List Piece)) :
    readValues defines false value pending (trim (label.map .char ++ .char ':' :: rest) :: args) =
      match operand defines (dropWhileEnd Piece.isBlank rest) with
      | .text content =>
        (pending ++ codesOf label).foldlM (fun v code => v.assign code content) value >>=
          fun value => readValues defines false value [] args
      | .word shown | .other shown => .error (.invalidValue shown)
      | .nothing =>
        .error (.missingLocaleValue (readValues.joined (pending ++ codesOf label))) := by
  have hfront : (label.map Piece.char).dropWhile Piece.isBlank =
      (label.dropWhile FlashStrings.isBlank).map .char := List.dropWhile_map
  have htrim : trim (label.map .char ++ .char ':' :: rest) =
      (label.dropWhile FlashStrings.isBlank).map .char ++
        .char ':' :: dropWhileEnd Piece.isBlank rest := by
    rw [trim, trimWhile_append_cons (by decide), hfront]
  have hlabel : label? 0 (trim (label.map .char ++ .char ':' :: rest)) =
      some ((label.dropWhile FlashStrings.isBlank).map .char,
        dropWhileEnd Piece.isBlank rest) := by
    rw [htrim]
    refine label?_append (fun d hd hmem => ?_) _
    obtain ⟨c, hc, heq⟩ := List.mem_map.1 hmem
    obtain rfl := Piece.char.inj heq
    have hmark : c ∈ ['(', ')', ',', ':', '"', '\''] := by
      simp only [List.mem_cons, List.not_mem_nil, or_false] at hd ⊢
      tauto
    exact h.notMem_marks c hmark ((List.dropWhile_sublist _).subset hc)
  have hempty : (trim (label.map .char ++ .char ':' :: rest)).isEmpty = false := by
    rw [htrim]
    simp
  rw [readValues]
  simp only [hempty, hlabel, text_map_char, localeCodes_dropWhile h, Bool.false_eq_true, if_false]
  rfl

/-- Single codes of a label may be arguments of their own. -/
theorem readValues_grouped (h : IsLabel (grouped ';' groups last))
    (hsingle : ∀ group ∈ groups, ';' ∉ group)
    (hdefines : ∀ group ∈ groups, ∀ code ∈ codesOf group, defines.get? code = none)
    (value : Value) (pending : List String) (rest : List Piece) (args : List (List Piece)) :
    readValues defines false value pending
        ((groups.map (·.map .char)).map trim ++
          trim (last.map .char ++ .char ':' :: rest) :: args) =
      readValues defines false value pending
        (trim ((grouped ';' groups last).map .char ++ .char ':' :: rest) :: args) := by
  obtain ⟨hgroups, hlast⟩ := isLabel_grouped_iff.1 h
  rw [readValues_codes hgroups hsingle hdefines, readValues_label hlast, readValues_label h,
    codesOf_grouped hsingle, ← List.append_assoc]

theorem readValue_of_length {args : List (List Piece)} (h : 2 ≤ args.length) :
    readValue defines args = (readValues defines true {} [] args).map Value.normalizeWildcard := by
  unfold readValue
  split
  · exact absurd h (by decide)
  · rfl

theorem readAll_of_split {closed : Bool} {first : List Piece} {others : List (List Piece)}
    (h : split closed 0 ps = .ok (first :: others)) :
    readAll defines closed ps =
      if (shown (trim first)).isEmpty then .error .missingIdentifier
      else if !isIdentifier (shown (trim first)) then
        .error (.invalidIdentifier (shown (trim first)))
      else
        (readValue defines (others.map trim)).map fun value =>
          { identifier := shown (trim first), value } := by
  rw [readAll, h]
  show (if (shown (trim first)).isEmpty then _ else _) = _
  cases hvalue : readValue defines (others.map trim) with
  | error e => simp only [List.map_cons, List.tail_cons, hvalue]; rfl
  | ok value => simp only [List.map_cons, List.tail_cons, hvalue]; rfl

/-- Invocations with the same first arguments are read alike when the others are. -/
theorem readAll_congr {closed : Bool} {front xs ys : List (List Piece)}
    (hfront : 2 ≤ front.length) (hps : split closed 0 ps = .ok (front ++ xs))
    (hqs : split closed 0 qs = .ok (front ++ ys)) (hxs : xs ≠ []) (hys : ys ≠ [])
    (h : ∀ value pending, readValues defines false value pending (xs.map trim) =
      readValues defines false value pending (ys.map trim)) :
    readAll defines closed ps = readAll defines closed qs := by
  obtain ⟨identifier, values, rfl⟩ := List.exists_cons_of_length_pos (Nat.lt_of_succ_lt hfront)
  have hvalues : 0 < values.length := Nat.lt_of_succ_lt_succ hfront
  have hlength {zs : List (List Piece)} (hzs : zs ≠ []) :
      2 ≤ (values.map trim ++ zs.map trim).length := by
    have := List.length_pos_of_ne_nil hzs
    simp only [List.length_append, List.length_map]
    omega
  have hne : values.map trim ≠ [] := List.ne_nil_of_length_pos (by rwa [List.length_map])
  have hvalue : readValue defines ((values ++ xs).map trim) =
      readValue defines ((values ++ ys).map trim) := by
    rw [List.map_append, List.map_append, readValue_of_length (hlength hxs),
      readValue_of_length (hlength hys), readValues_append hne h]
  rw [List.cons_append] at hps hqs
  rw [readAll_of_split hps, readAll_of_split hqs, hvalue]

/-! ## Clauses -/

/-- A label and its colon stand in front of the first part of what is behind them. -/
theorem split_label {closed : Bool} (h : IsLabel label) (qs : List Piece) :
    split closed 0 (label.map Piece.char ++ .char ':' :: qs) =
      (split closed 0 qs).map fun parts =>
        (label.map Piece.char ++ [Piece.char ':']).foldr pushFirst parts := by
  have hmarks : ∀ d ∈ ['(', ')', ','], Piece.char d ∉ label.map Piece.char ++ [.char ':'] := by
    intro d hd hmem
    have hlabel : d ∉ label := by
      refine h.notMem_marks d ?_
      simp only [List.mem_cons, List.not_mem_nil, or_false] at hd ⊢
      tauto
    rcases List.mem_append.1 hmem with hmem | hmem
    · obtain ⟨c, hc, heq⟩ := List.mem_map.1 hmem
      exact hlabel (Piece.char.inj heq ▸ hc)
    · obtain rfl := Piece.char.inj (List.mem_singleton.1 hmem)
      exact absurd hd (by decide)
  rw [← split_append_front _ hmarks, List.append_assoc, List.singleton_append]

/-- Groups in front of commas are parts of their own, and the last codes of the label are
in front of what follows. -/
theorem split_grouped (closed : Bool) {front : List (List Piece)}
    (hfront : split true 0 ps = .ok front) (h : IsLabel (grouped ';' groups last))
    (qs : List Piece) :
    split closed 0 (ps ++ .char ',' ::
        ((grouped ',' groups last).map .char ++ .char ':' :: qs)) =
      (split closed 0 qs).map fun parts => front ++ (groups.map (·.map .char) ++
        (last.map Piece.char ++ [Piece.char ':']).foldr pushFirst parts) := by
  obtain ⟨hgroups, hlast⟩ := isLabel_grouped_iff.1 h
  rw [split_append_comma hfront, grouped, List.map_append, List.append_assoc,
    split_groups hgroups, split_label hlast]
  cases split closed 0 qs <;> rfl

/-- In groups of one code a label is read as with semicolons. -/
theorem readAll_grouped {closed : Bool} {front : List (List Piece)}
    (hfront : split true 0 ps = .ok front) (hlabel : IsLabel (grouped ';' groups last))
    (hdefines : ∀ group ∈ groups, ∀ code ∈ codesOf group, defines.get? code = none)
    (hnone : refusedGroup? (front.length == 1) groups = none) (qs : List Piece) :
    readAll defines closed (ps ++ .char ',' ::
        ((grouped ',' groups last).map .char ++ .char ':' :: qs)) =
      readAll defines closed (ps ++ .char ',' ::
        ((grouped ';' groups last).map .char ++ .char ':' :: qs)) := by
  cases hfirst : front.length == 1 with
  | true =>
    rw [refusedGroup?, hfirst, if_pos rfl, List.head?_eq_none_iff] at hnone
    rw [hnone]
    rfl
  | false =>
    rw [refusedGroup?, hfirst, if_neg Bool.false_ne_true, List.find?_eq_none] at hnone
    have hsingle : ∀ group ∈ groups, ';' ∉ group := fun group hgroup => by
      simpa using hnone group hgroup
    have hlength : 2 ≤ front.length := by
      have hpos := List.length_pos_iff.2 (joinWith_of_split hfront).1
      have hne : front.length ≠ 1 := by simpa using hfirst
      omega
    have hgrouped := split_grouped closed hfront hlabel qs
    have hlisted := split_append_comma hfront closed
      ((grouped ';' groups last).map .char ++ .char ':' :: qs)
    rw [split_label hlabel] at hlisted
    cases hqs : split closed 0 qs with
    | error e =>
      rw [hqs] at hgrouped hlisted
      rw [readAll, readAll, hgrouped, hlisted]
      rfl
    | ok others =>
      obtain ⟨part, others, rfl⟩ := List.exists_cons_of_ne_nil (joinWith_of_split hqs).1
      rw [hqs] at hgrouped hlisted
      simp only [Except.map, foldr_pushFirst, List.append_assoc, List.singleton_append]
        at hgrouped hlisted
      refine readAll_congr hlength hgrouped hlisted (by simp) (by simp) fun value pending => ?_
      rw [List.map_append, List.map_cons, List.map_cons]
      exact readValues_grouped hlabel hsingle hdefines value pending part _

/-- A group is refused behind values that are accepted. -/
theorem readValue_refused {values listed args : List (List Piece)} {result : Value}
    (hgroups : ∀ group ∈ groups, IsLabel group)
    (hdefines : ∀ group ∈ groups, ∀ code ∈ codesOf group, defines.get? code = none)
    (hrefused : refusedGroup? values.isEmpty groups = some group)
    (hlisted : readValue defines (values ++ listed) = .ok result) (hne : listed ≠ [])
    (hargs : args ≠ []) :
    readValue defines (values ++ ((groups.map (·.map .char)).map trim ++ args)) =
      .error (.invalidValue (String.ofList (FlashStrings.trim group))) := by
  have hlength := List.length_pos_iff.2 hne
  have hlength' := List.length_pos_iff.2 hargs
  cases values with
  | nil =>
    obtain ⟨others, rfl⟩ := List.head?_eq_some_iff.1 hrefused
    have hgroup : IsLabel group := hgroups group List.mem_cons_self
    rw [readValue_of_length (by simp; omega)]
    show (readValues defines true {} [] (trim (group.map .char) :: _)).map _ = _
    rw [readValues_first hgroup (hdefines group List.mem_cons_self)]
    rfl
  | cons arg values =>
    have hmem : group ∈ groups := List.mem_of_find?_eq_some hrefused
    rw [readValue_of_length (by simp; omega)] at hlisted
    obtain ⟨_, hlisted, -⟩ := map_eq_ok hlisted
    obtain ⟨value, pending, hstate⟩ :=
      exists_readValues_append (List.cons_ne_nil arg values) hlisted
    rw [readValue_of_length (by simp; omega), hstate, readValues_refused hgroups hdefines hrefused]
    rfl

/-- A group that is refused makes the invocation an error. -/
theorem readAll_refused {closed : Bool} {front : List (List Piece)} {read : Invocation}
    (hfront : split true 0 ps = .ok front) (hlabel : IsLabel (grouped ';' groups last))
    (hdefines : ∀ group ∈ groups, ∀ code ∈ codesOf group, defines.get? code = none)
    (hrefused : refusedGroup? (front.length == 1) groups = some group) {qs : List Piece}
    (h : readAll defines closed (ps ++ .char ',' ::
      ((grouped ';' groups last).map .char ++ .char ':' :: qs)) = .ok read) :
    readAll defines closed (ps ++ .char ',' ::
        ((grouped ',' groups last).map .char ++ .char ':' :: qs)) =
      .error (.invalidValue (String.ofList (FlashStrings.trim group))) := by
  obtain ⟨parts, hlisted, hidentifier, -, hvalue⟩ := readAll_eq_ok h
  have hgrouped := split_grouped closed hfront hlabel qs
  rw [split_append_comma hfront, split_label hlabel] at hlisted
  obtain ⟨_, hjoined, rfl⟩ := map_eq_ok hlisted
  obtain ⟨others, hqs, rfl⟩ := map_eq_ok hjoined
  obtain ⟨part, others, rfl⟩ := List.exists_cons_of_ne_nil (joinWith_of_split hqs).1
  obtain ⟨identifier, values, rfl⟩ :=
    List.exists_cons_of_ne_nil (joinWith_of_split hfront).1
  rw [hqs, Except.map, foldr_pushFirst, List.cons_append] at hgrouped
  rw [foldr_pushFirst, List.cons_append, List.map_cons, List.tail_cons, List.map_append] at hvalue
  have hname : isIdentifier (shown (trim identifier)) = true := hidentifier
  have hfirst : ((identifier :: values).length == 1) = (values.map trim).isEmpty := by
    cases values <;> rfl
  rw [hfirst] at hrefused
  rw [readAll_of_split hgrouped, List.map_append, List.map_append]
  simp only [isEmpty_of_isIdentifier hname, hname, Bool.not_true, Bool.false_eq_true, if_false]
  rw [readValue_refused (isLabel_grouped_iff.1 hlabel).1 hdefines hrefused hvalue (by simp)
    (by simp)]
  rfl

end Argument

/-- A text that is split has no unclosed literal. -/
theorem exists_of_splitArguments {text : String} {arguments : List String}
    (h : splitArguments text = .ok arguments) :
    (Argument.read text.toList).2 = [] ∧ ∃ parts,
      Argument.split true 0 (Argument.read text.toList).1 = .ok parts ∧
      parts.map Argument.shown = arguments := by
  rw [splitArguments] at h
  obtain ⟨parts, hparts, hshown⟩ := map_eq_ok h
  have hclosed := Argument.closed_of_split hparts
  rw [hclosed] at hparts
  exact ⟨List.isEmpty_iff.1 hclosed, parts, hparts, hshown⟩

/-- The pieces that a text with a label in it is read as. -/
theorem parseArguments_label {mark : Char} {front : List Char}
    (hfront : (Argument.read front).2 = []) (hlabel : IsLabel (grouped ';' groups last))
    (hmark : mark ∈ [',', ';']) (defines : Defines) (rest : List Char) :
    parseArguments defines
        (String.ofList (front ++ ',' :: (grouped mark groups last ++ ':' :: rest))) =
      Argument.readAll defines (Argument.read rest).2.isEmpty
        ((Argument.read front).1 ++ .char ',' :: ((grouped mark groups last).map .char ++
          .char ':' :: (Argument.read rest).1)) := by
  have hquotes : ∀ c ∈ grouped mark groups last, ¬(c = '"' ∨ c = '\'') := by
    simp only [List.mem_cons, List.not_mem_nil, or_false] at hmark
    rintro c hc (rfl | rfl)
    · exact notMem_grouped hlabel (by rcases hmark with rfl | rfl <;> decide) (by decide) hc
    · exact notMem_grouped hlabel (by rcases hmark with rfl | rfl <;> decide) (by decide) hc
  rw [parseArguments, String.toList_ofList, Argument.read_append_of_closed hfront,
    Argument.read_char (by decide), Argument.read_append hquotes, Argument.read_char (by decide)]

/-- A label in groups with commas between them is read as with semicolons, unless a group is
refused.  When the invocation with semicolons is accepted, a refused group is the error. -/
theorem parseArguments_grouped {defines : Defines} {front : List Char} {arguments : List String}
    (hfront : splitArguments (String.ofList front) = .ok arguments)
    (hlabel : IsLabel (grouped ';' groups last))
    (hdefines : ∀ group ∈ groups, ∀ code ∈ codesOf group, defines.get? code = none)
    (rest : List Char) :
    let listed := parseArguments defines
      (String.ofList (front ++ ',' :: (grouped ';' groups last ++ ':' :: rest)))
    let commas := parseArguments defines
      (String.ofList (front ++ ',' :: (grouped ',' groups last ++ ':' :: rest)))
    (refusedGroup? (arguments.length == 1) groups = none → commas = listed) ∧
      ∀ group, refusedGroup? (arguments.length == 1) groups = some group →
        ∀ read, listed = .ok read →
          commas = .error (.invalidValue (String.ofList (trim group))) := by
  intro listed commas
  obtain ⟨hclosed, parts, hparts, rfl⟩ := exists_of_splitArguments hfront
  rw [String.toList_ofList] at hclosed hparts
  rw [List.length_map]
  have hlisted : listed = _ := parseArguments_label hclosed hlabel (by simp) defines rest
  have hcommas : commas = _ := parseArguments_label hclosed hlabel (by simp) defines rest
  rw [hlisted, hcommas]
  exact ⟨fun hnone => Argument.readAll_grouped hparts hlabel hdefines hnone _,
    fun group hrefused read h => Argument.readAll_refused hparts hlabel hdefines hrefused h⟩

/-- Codes behind a fallback in two ways: each in front of a comma, and two of them. -/
theorem parseArguments_grouped_sample :
    splitArguments (String.ofList "yes, \"Yes\"".toList) = .ok ["yes", " \"Yes\""] ∧
      (∀ groups ∈ [[" de".toList, " at".toList], [" de;at".toList]],
        IsLabel (grouped ';' groups " ch".toList) ∧
          ∀ group ∈ groups, ∀ code ∈ codesOf group, (∅ : Defines).get? code = none) ∧
      parseArguments ∅ (String.ofList "yes, \"Yes\", de, at, ch: \"Ja\"".toList) =
        parseArguments ∅ (String.ofList "yes, \"Yes\", de; at; ch: \"Ja\"".toList) ∧
      parseArguments ∅ (String.ofList "yes, \"Yes\", de;at, ch: \"Ja\"".toList) =
        .error (.invalidValue "de;at") := by
  have hfront : splitArguments (String.ofList "yes, \"Yes\"".toList) =
      .ok ["yes", " \"Yes\""] := by decide +kernel
  have hlabels : ∀ groups ∈ [[" de".toList, " at".toList], [" de;at".toList]],
      IsLabel (grouped ';' groups " ch".toList) ∧
        ∀ group ∈ groups, ∀ code ∈ codesOf group, (∅ : Defines).get? code = none := by
    unfold IsLabel
    decide +kernel
  obtain ⟨hsingle, hdefines⟩ := hlabels [" de".toList, " at".toList] (by simp)
  obtain ⟨hseveral, hdefines'⟩ := hlabels [" de;at".toList] (by simp)
  have hread : parseArguments ∅ (String.ofList "yes, \"Yes\", de;at; ch: \"Ja\"".toList) =
      .ok ⟨"yes", some "Yes", .ofList [("at", "Ja"), ("ch", "Ja"), ("de", "Ja")]⟩ := by
    decide +kernel
  refine ⟨hfront, hlabels, ?_, ?_⟩
  · exact (parseArguments_grouped hfront hsingle hdefines " \"Ja\"".toList).1 (by decide)
  · exact (parseArguments_grouped hfront hseveral hdefines' " \"Ja\"".toList).2
      " de;at".toList (by decide) _ hread

/-- In the place of the first value a bare code is refused, and so is what stands in front
of a comma with a semicolon in it. -/
theorem parseArguments_ungrouped :
    (parseArguments ∅ "x, de;at: \"Ja\"").toOption.isSome = true ∧
      parseArguments ∅ "x, de, at: \"Ja\"" = .error (.invalidValue "de") ∧
      (parseArguments ∅ "x, \"Yes\", de;at;ch: \"Ja\"").toOption.isSome = true ∧
      parseArguments ∅ "x, \"Yes\", de;at, ch: \"Ja\"" = .error (.invalidValue "de;at") := by
  refine ⟨by decide +kernel, by decide +kernel, by decide +kernel, by decide +kernel⟩

end FlashStrings
