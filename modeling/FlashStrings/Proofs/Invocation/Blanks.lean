import FlashStrings.Proofs.Except
import FlashStrings.Proofs.Invocation.Pieces
import FlashStrings.Proofs.Invocation.Segments
import FlashStrings.Source.Extract

/-!
# How many blanks there are

Blanks separate the tokens of the arguments, and one blank does that as well as many.
`Stretched p s s'` says that one blank of the first list stands twice in the second.  Every
function that reads arguments keeps this relation or does not see the difference, so the
arguments give the same (`Argument.readAll_stretched`) and mention the same names
(`Argument.mentions_stretched`).  Only the text in an error may show the blanks.
-/

namespace FlashStrings

/-- The same list, in which one blank may stand twice. -/
inductive Stretched {α : Type} (p : α → Bool) : List α → List α → Prop where
  | refl (s : List α) : Stretched p s s
  | blank {a : α} {s : List α} : p a = true → Stretched p (a :: s) (a :: a :: s)
  | cons {a : α} {s s' : List α} : Stretched p s s' → Stretched p (a :: s) (a :: s')

namespace Stretched

variable {α : Type} {p : α → Bool} {s s' : List α} {a : α}

theorem append_left (h : Stretched p s s') (t : List α) : Stretched p (t ++ s) (t ++ s') := by
  induction t with
  | nil => exact h
  | cons a t ih => exact .cons ih

theorem append_right (h : Stretched p s s') (t : List α) : Stretched p (s ++ t) (s' ++ t) := by
  induction h with
  | refl s => exact .refl _
  | blank ha => exact .blank ha
  | cons _ ih => exact .cons ih

theorem reverse (h : Stretched p s s') : Stretched p s.reverse s'.reverse := by
  induction h with
  | refl s => exact .refl _
  | @blank a s ha =>
    rw [List.reverse_cons, List.reverse_cons, List.reverse_cons, List.append_assoc]
    exact append_left (.blank ha) s.reverse
  | cons _ ih =>
    rw [List.reverse_cons, List.reverse_cons]
    exact ih.append_right _

theorem dropWhile (h : Stretched p s s') : Stretched p (s.dropWhile p) (s'.dropWhile p) := by
  induction h with
  | refl s => exact .refl _
  | @blank a s ha =>
    rw [List.dropWhile_cons_of_pos ha, List.dropWhile_cons_of_pos ha, List.dropWhile_cons_of_pos ha]
    exact .refl _
  | @cons a s s' h ih =>
    cases ha : p a with
    | true => rwa [List.dropWhile_cons_of_pos ha, List.dropWhile_cons_of_pos ha]
    | false =>
      rw [List.dropWhile_cons_of_neg (by simp [ha]), List.dropWhile_cons_of_neg (by simp [ha])]
      exact .cons h

theorem trimWhile (h : Stretched p s s') : Stretched p (trimWhile p s) (trimWhile p s') :=
  h.dropWhile.reverse.dropWhile.reverse

theorem isEmpty_eq (h : Stretched p s s') : s'.isEmpty = s.isEmpty := by
  cases h <;> rfl

/-- Lists that differ have a blank. -/
theorem eq_or_exists (h : Stretched p s s') :
    s' = s ∨ (∃ a ∈ s, p a = true) ∧ ∃ a ∈ s', p a = true := by
  induction h with
  | refl s => exact .inl rfl
  | blank ha => exact .inr ⟨⟨_, List.mem_cons_self, ha⟩, _, List.mem_cons_self, ha⟩
  | cons _ ih =>
    rcases ih with rfl | ⟨⟨a, hmem, ha⟩, b, hmem', hb⟩
    · exact .inl rfl
    · exact .inr ⟨⟨a, List.mem_cons_of_mem _ hmem, ha⟩, b, List.mem_cons_of_mem _ hmem', hb⟩

/-- What stands behind the blanks ends both lists. -/
theorem dropLast (h : Stretched p s s') (ha : s.getLast? = some a) (hp : p a = false) :
    Stretched p s.dropLast s'.dropLast := by
  induction h with
  | refl s => exact .refl _
  | @blank b s hb =>
    cases s with
    | nil =>
      obtain rfl : b = a := by simpa using ha
      rw [hp] at hb
      cases hb
    | cons c s => exact .blank hb
  | @cons b s s' h ih =>
    cases s with
    | nil =>
      obtain rfl : s' = [] := List.isEmpty_iff.1 h.isEmpty_eq
      exact .refl _
    | cons c s =>
      have hne : s' ≠ [] := fun hnil => by
        have hempty := h.isEmpty_eq
        rw [hnil] at hempty
        cases hempty
      rw [List.dropLast_cons_cons, List.dropLast_cons_of_ne_nil hne]
      exact .cons (ih ha)

/-- What does not see that one blank is doubled does not see how many there are. -/
theorem eq_of_replicate {β : Type} {f : List α → β}
    (hf : ∀ s s', Stretched p s s' → f s' = f s) (ha : p a = true) (front back : List α) (n : Nat) :
    f (front ++ (List.replicate (n + 1) a ++ back)) = f (front ++ a :: back) := by
  induction n with
  | zero => rfl
  | succ n ih =>
    rw [← ih]
    exact hf _ _ (append_left (.blank ha) front)

theorem cutAt [DecidableEq α] {sep : α} (h : Stretched p s s') (hsep : p sep = false) :
    List.Forall₂ (Stretched p) (cutAt sep s) (cutAt sep s') := by
  have refl (parts : List (List α)) : List.Forall₂ (Stretched p) parts parts :=
    List.forall₂_same.2 fun part _ => .refl part
  have hcons (c : α) (s : List α) : ∃ part parts, FlashStrings.cutAt sep s = part :: parts ∧
      FlashStrings.cutAt sep (c :: s) =
        if c = sep then [] :: part :: parts else (c :: part) :: parts := by
    obtain ⟨part, parts, heq⟩ := List.exists_cons_of_ne_nil (cutAt_ne_nil sep s)
    exact ⟨part, parts, heq, by rw [FlashStrings.cutAt, heq]⟩
  induction h with
  | refl s => exact refl _
  | @blank a s ha =>
    have hne : a ≠ sep := by
      rintro rfl
      rw [hsep] at ha
      cases ha
    obtain ⟨part, parts, -, heq⟩ := hcons a s
    obtain ⟨part', parts', heq', hcut⟩ := hcons a (a :: s)
    rw [heq, if_neg hne] at heq'
    obtain ⟨rfl, rfl⟩ := List.cons.inj heq'
    rw [heq, hcut, if_neg hne, if_neg hne]
    exact .cons (.blank ha) (refl _)
  | @cons a s s' h ih =>
    obtain ⟨part, parts, heq, hcut⟩ := hcons a s
    obtain ⟨part', parts', heq', hcut'⟩ := hcons a s'
    rw [heq, heq'] at ih
    obtain ⟨hpart, hparts⟩ := List.forall₂_cons.1 ih
    rw [hcut, hcut']
    split
    · exact .cons (.refl _) (.cons hpart hparts)
    · exact .cons (.cons hpart) hparts

end Stretched

/-! ## Results with other errors -/

theorem toOption_bind {ε α β : Type} {x y : Except ε α} {f g : α → Except ε β}
    (h : y.toOption = x.toOption) (hf : ∀ a, (g a).toOption = (f a).toOption) :
    (y >>= g).toOption = (x >>= f).toOption := by
  cases x with
  | error e =>
    cases y with
    | error e' => rfl
    | ok b => cases h
  | ok a =>
    cases y with
    | error e' => cases h
    | ok b =>
      obtain rfl := Option.some.inj h
      exact hf b

theorem toOption_map {ε α β : Type} {x y : Except ε α} (h : y.toOption = x.toOption) (f : α → β) :
    (y.map f).toOption = (x.map f).toOption :=
  toOption_bind h fun _ => rfl

theorem toOption_mapM {ε α β : Type} {R : α → α → Prop} {f : α → Except ε β} {l l' : List α}
    (h : List.Forall₂ R l l') (hf : ∀ a b, R a b → (f b).toOption = (f a).toOption) :
    (l'.mapM f).toOption = (l.mapM f).toOption := by
  induction h with
  | nil => rfl
  | cons hab _ ih =>
    rw [List.mapM_cons, List.mapM_cons]
    exact toOption_bind (hf _ _ hab) fun b => toOption_bind ih fun bs => rfl

namespace Argument

variable {defines : Defines} {ps ps' : List Piece}

/-! ## Pieces and their text -/

theorem text_stretched (h : Stretched Piece.isBlank ps ps') :
    Stretched isBlank (text ps) (text ps') := by
  induction h with
  | refl ps => exact .refl _
  | @blank p ps hp =>
    cases p with
    | char c => exact .blank hp
    | literal => cases hp
  | @cons p ps ps' _ ih => exact ih.append_left p.text

theorem not_isLocaleCode_of_isBlank {s : List Char} (h : ∃ c ∈ s, isBlank c = true) :
    isLocaleCode (String.ofList s) = false := by
  obtain ⟨c, hmem, hc⟩ := h
  refine not_isLocaleCode_of_char hmem ?_ ?_
  · rw [isLocaleChar, not_isNameChar_of_isBlank hc, Bool.false_or, beq_eq_false_iff_ne]
    rintro rfl
    cases hc
  · rintro rfl
    cases hc

theorem not_isIdentifier_of_isBlank {s : List Char} (h : ∃ c ∈ s, isBlank c = true) :
    isIdentifier (String.ofList s) = false := by
  obtain ⟨c, hmem, hc⟩ := h
  exact not_isIdentifier_of_char hmem (not_isNameChar_of_isBlank hc)

theorem localeCodes_stretched {s s' : List Char} (h : Stretched isBlank s s') :
    (localeCodes s').toOption = (localeCodes s).toOption := by
  have hcut : List.Forall₂ (Stretched isBlank) (cutAt ';' s) (cutAt ';' s') := h.cutAt rfl
  refine toOption_mapM hcut fun part part' hpart => ?_
  rcases hpart.trimWhile.eq_or_exists with heq | ⟨hblank, hblank'⟩
  · rw [FlashStrings.trim, heq]
    rfl
  · simp only [FlashStrings.trim, not_isLocaleCode_of_isBlank hblank,
      not_isLocaleCode_of_isBlank hblank']
    rfl

/-! ## Splitting -/

/-- The same error, or results that are in the relation. -/
def SameError {ε α β : Type} (R : α → β → Prop) (x : Except ε α) (y : Except ε β) : Prop :=
  (∃ e, x = .error e ∧ y = .error e) ∨ ∃ a b, x = .ok a ∧ y = .ok b ∧ R a b

theorem SameError.map {ε α β : Type} {R : α → α → Prop} {S : β → β → Prop} {x y : Except ε α}
    {f g : α → β} (h : SameError R x y) (hf : ∀ a b, R a b → S (f a) (g b)) :
    SameError S (x.map f) (y.map g) := by
  rcases h with ⟨e, rfl, rfl⟩ | ⟨a, b, rfl, rfl, hab⟩
  · exact .inl ⟨e, rfl, rfl⟩
  · exact .inr ⟨f a, g b, rfl, rfl, hf a b hab⟩

/-- Parts of which at most one blank is doubled. -/
abbrev PartsStretched : List (List Piece) → List (List Piece) → Prop :=
  List.Forall₂ (Stretched Piece.isBlank)

theorem pushFirst_stretched (p : Piece) {parts parts' : List (List Piece)}
    (h : PartsStretched parts parts') :
    PartsStretched (pushFirst p parts) (pushFirst p parts') := by
  cases h with
  | nil => exact .cons (.refl _) .nil
  | cons hpart hparts => exact .cons (.cons hpart) hparts

theorem split_of_isBlank {p : Piece} (hp : p.isBlank = true) (closed : Bool) (depth : Nat)
    (ps : List Piece) :
    split closed depth (p :: ps) = (split closed depth ps).map (pushFirst p) := by
  refine split_of_ne ?_ ?_ ?_ closed depth ps <;> rintro rfl <;> cases hp

theorem split_stretched (h : Stretched Piece.isBlank ps ps') (closed : Bool) (depth : Nat) :
    SameError PartsStretched (split closed depth ps) (split closed depth ps') := by
  induction h generalizing depth with
  | refl ps =>
    cases split closed depth ps with
    | error e => exact .inl ⟨e, rfl, rfl⟩
    | ok parts => exact .inr ⟨_, _, rfl, rfl, List.forall₂_same.2 fun part _ => .refl part⟩
  | @blank p ps hp =>
    rw [split_of_isBlank hp, split_of_isBlank hp, split_of_isBlank hp]
    cases split closed depth ps with
    | error e => exact .inl ⟨e, rfl, rfl⟩
    | ok parts =>
      refine .inr ⟨_, _, rfl, rfl, ?_⟩
      cases parts with
      | nil => exact .cons (.blank hp) .nil
      | cons part parts =>
        exact .cons (.blank hp) (List.forall₂_same.2 fun part _ => .refl part)
  | @cons p ps ps' h ih =>
    by_cases hopen : p = .char '('
    · subst hopen
      exact (ih (depth + 1)).map fun _ _ => pushFirst_stretched _
    by_cases hclose : p = .char ')'
    · subst hclose
      cases depth with
      | zero => exact .inl ⟨_, rfl, rfl⟩
      | succ depth => exact (ih depth).map fun _ _ => pushFirst_stretched _
    by_cases hcomma : p = .char ','
    · subst hcomma
      rw [split, split]
      split
      · exact (ih _).map fun _ _ hparts => .cons (.refl _) hparts
      · exact (ih _).map fun _ _ => pushFirst_stretched _
    · rw [split_of_ne hopen hclose hcomma, split_of_ne hopen hclose hcomma]
      exact (ih _).map fun _ _ => pushFirst_stretched _

/-! ## Operands -/

theorem closesAtEnd_stretched (h : Stretched Piece.isBlank ps ps') (depth : Nat) :
    closesAtEnd depth ps' = closesAtEnd depth ps := by
  induction h generalizing depth with
  | refl ps => rfl
  | @blank p ps hp =>
    have hskip (ps : List Piece) : closesAtEnd depth (p :: ps) = closesAtEnd depth ps := by
      rw [closesAtEnd] <;> rintro rfl <;> cases hp
    rw [hskip]
  | @cons p ps ps' h ih =>
    by_cases hopen : p = .char '('
    · subst hopen
      exact ih (depth + 1)
    by_cases hclose : p = .char ')'
    · subst hclose
      rw [closesAtEnd, closesAtEnd, h.isEmpty_eq, ih]
    · rw [closesAtEnd, closesAtEnd, ih]
      all_goals assumption

theorem unwrap?_stretched (h : Stretched Piece.isBlank ps ps') :
    Option.Rel (Stretched Piece.isBlank) (unwrap? ps) (unwrap? ps') := by
  have hnone {p : Piece} (hp : p ≠ .char '(') (ps : List Piece) : unwrap? (p :: ps) = none := by
    rw [unwrap?]
    rintro _ heq
    exact hp (List.cons.inj heq).1
  cases h with
  | refl ps =>
    cases unwrap? ps with
    | none => exact .none
    | some inner => exact .some (.refl inner)
  | @blank p ps hp =>
    have hopen : p ≠ .char '(' := by
      rintro rfl
      cases hp
    rw [hnone hopen, hnone hopen]
    exact .none
  | @cons p ps ps' h =>
    by_cases hopen : p = .char '('
    · subst hopen
      rw [unwrap?, unwrap?, closesAtEnd_stretched h]
      split
      · next hclose =>
        exact .some ((h.dropLast (getLast?_of_closesAtEnd hclose) rfl).trimWhile)
      · exact .none
    · rw [hnone hopen, hnone hopen]
      exact .none

theorem unwrap_of_some {inner : List Piece} (h : unwrap? ps = some inner) :
    unwrap ps = unwrap inner := by
  rw [unwrap]
  split
  · next inner' h' =>
    obtain rfl := Option.some.inj (h.symm.trans h')
    rfl
  · next h' => simp [h] at h'

theorem unwrap_stretched (h : Stretched Piece.isBlank ps ps') :
    Stretched Piece.isBlank (unwrap ps) (unwrap ps') := by
  have hrel := unwrap?_stretched h
  fun_induction unwrap ps generalizing ps' with
  | case1 ps inner hinner _ ih =>
    rw [hinner] at hrel
    cases hinner' : unwrap? ps' with
    | none =>
      rw [hinner'] at hrel
      cases hrel
    | some inner' =>
      rw [hinner'] at hrel
      obtain ⟨hstretched⟩ := hrel
      rw [unwrap_of_some hinner']
      exact ih hstretched (unwrap?_stretched hstretched)
  | case2 ps hinner =>
    rw [hinner] at hrel
    cases hinner' : unwrap? ps' with
    | none => rwa [unwrap_of_none hinner']
    | some inner' =>
      rw [hinner'] at hrel
      cases hrel

theorem segments?_stretched (h : Stretched Piece.isBlank ps ps') (word : List Char) :
    segments? defines word ps' = segments? defines word ps := by
  induction h generalizing word with
  | refl ps => rfl
  | @blank p ps hp =>
    cases p with
    | char c => rw [segments?_blank word hp, segments?_skip hp, segments?_blank word hp]
    | literal => cases hp
  | @cons p ps ps' _ ih =>
    cases p with
    | char c =>
      rw [segments?, segments?, ih, ih]
    | literal q body =>
      by_cases hq : q = '"'
      · subst hq
        rw [segments?, segments?, ih]
      · rw [segments?, segments?]
        · exact fun h => hq h
        · exact fun h => hq h

/-- The operand is the same, or neither of them is a value. -/
theorem operand_stretched (defines : Defines) (h : Stretched Piece.isBlank ps ps') :
    operand defines ps' = operand defines ps ∨
      ∃ shown shown', operand defines ps = .other shown ∧ operand defines ps' = .other shown' := by
  have hinner : Stretched Piece.isBlank (unwrap (trim ps)) (unwrap (trim ps')) :=
    unwrap_stretched h.trimWhile
  rw [operand, operand]
  generalize unwrap (trim ps) = inner at hinner ⊢
  generalize unwrap (trim ps') = inner' at hinner ⊢
  have htext := text_stretched hinner
  simp only [hinner.isEmpty_eq, segments?_stretched hinner]
  split
  · exact .inl rfl
  rcases htext.eq_or_exists with heq | ⟨hblank, hblank'⟩
  · rw [shown, shown, heq]
    exact .inl rfl
  · rw [shown, shown, not_isLocaleCode_of_isBlank hblank, not_isLocaleCode_of_isBlank hblank']
    cases segments? defines [] inner with
    | some segments => exact .inl rfl
    | none => exact .inr ⟨_, _, rfl, rfl⟩

/-! ## Arguments -/

/-- A label and what is behind its colon. -/
def LabelStretched (found found' : List Piece × List Piece) : Prop :=
  Stretched Piece.isBlank found.1 found'.1 ∧ Stretched Piece.isBlank found.2 found'.2

theorem push_stretched (p : Piece) {found found' : Option (List Piece × List Piece)}
    (h : Option.Rel LabelStretched found found') :
    Option.Rel LabelStretched (label?.push p found) (label?.push p found') := by
  cases h with
  | none => exact .none
  | some h => exact .some ⟨.cons h.1, h.2⟩

theorem label?_stretched (h : Stretched Piece.isBlank ps ps') (depth : Nat) :
    Option.Rel LabelStretched (label? depth ps) (label? depth ps') := by
  have hne {p : Piece} (hcolon : p ≠ .char ':') (hopen : p ≠ .char '(') (hclose : p ≠ .char ')')
      (depth : Nat) (ps : List Piece) :
      label? depth (p :: ps) = label?.push p (label? depth ps) := by
    rw [label?]
    · exact hcolon
    · exact hopen
    · exact hclose
  induction h generalizing depth with
  | refl ps =>
    cases label? depth ps with
    | none => exact .none
    | some found => exact .some ⟨.refl _, .refl _⟩
  | @blank p ps hp =>
    have hblank (depth : Nat) (ps : List Piece) :
        label? depth (p :: ps) = label?.push p (label? depth ps) := by
      refine hne ?_ ?_ ?_ depth ps <;> rintro rfl <;> cases hp
    rw [hblank, hblank, hblank]
    cases label? depth ps with
    | none => exact .none
    | some found => exact .some ⟨.blank hp, .refl _⟩
  | @cons p ps ps' h ih =>
    by_cases hcolon : p = .char ':'
    · subst hcolon
      rw [label?, label?]
      split
      · exact .some ⟨.refl _, h⟩
      · exact push_stretched _ (ih depth)
    by_cases hopen : p = .char '('
    · subst hopen
      exact push_stretched _ (ih (depth + 1))
    by_cases hclose : p = .char ')'
    · subst hclose
      exact push_stretched _ (ih (depth - 1))
    · rw [hne hcolon hopen hclose, hne hcolon hopen hclose]
      exact push_stretched _ (ih depth)

theorem readValues_stretched {args args' : List (List Piece)} (h : PartsStretched args args')
    (first : Bool) (value : Value) (pending : List String) :
    (readValues defines first value pending args').toOption =
      (readValues defines first value pending args).toOption := by
  induction h generalizing first value pending with
  | nil => rfl
  | @cons arg arg' args args' harg _ ih =>
    rw [readValues, readValues, harg.isEmpty_eq]
    split
    · rfl
    have hlabel := label?_stretched harg 0
    generalize label? 0 arg = found at hlabel ⊢
    generalize label? 0 arg' = found' at hlabel ⊢
    cases hlabel with
    | none =>
      rcases operand_stretched defines harg with heq | ⟨shown, shown', heq, heq'⟩
      · rw [heq]
        cases operand defines arg with
        | text content =>
          dsimp only
          split
          · exact ih _ _ _
          · rfl
        | word code =>
          dsimp only
          split
          · rfl
          · exact ih _ _ _
        | nothing => rfl
        | other => rfl
      · rw [heq, heq']
        rfl
    | @some found found' hfound =>
      obtain ⟨label, rest⟩ := found
      obtain ⟨label', rest'⟩ := found'
      obtain ⟨hlabel, hrest⟩ := hfound
      refine toOption_bind (localeCodes_stretched (text_stretched hlabel)) fun codes => ?_
      rcases operand_stretched defines hrest with heq | ⟨shown, shown', heq, heq'⟩
      · rw [heq]
        cases operand defines rest with
        | text content => exact toOption_bind rfl fun value => ih _ _ _
        | word => rfl
        | nothing => rfl
        | other => rfl
      · rw [heq, heq']
        rfl

theorem readValue_stretched {args args' : List (List Piece)} (h : PartsStretched args args') :
    (readValue defines args').toOption = (readValue defines args).toOption := by
  by_cases hnone : args = [[]]
  · subst hnone
    cases h with
    | cons harg hrest =>
      cases hrest
      obtain rfl := List.isEmpty_iff.1 harg.isEmpty_eq
      rfl
  · have hnone' : args' ≠ [[]] := by
      rintro rfl
      cases h with
      | cons harg hrest =>
        cases hrest
        obtain rfl := List.isEmpty_iff.1 harg.isEmpty_eq.symm
        exact hnone rfl
    rw [readValue, readValue]
    · exact toOption_map (readValues_stretched h true {} []) _
    · exact hnone
    · exact hnone'

/-- Arguments in which one blank is doubled give the same, or both are refused. -/
theorem readAll_stretched (h : Stretched Piece.isBlank ps ps') (closed : Bool) :
    (readAll defines closed ps').toOption = (readAll defines closed ps).toOption := by
  rw [readAll, readAll]
  rcases split_stretched h closed 0 with ⟨e, heq, heq'⟩ | ⟨parts, parts', heq, heq', hparts⟩
  · rw [heq, heq']
  · rw [heq, heq']
    have htrim : PartsStretched (parts.map trim) (parts'.map trim) :=
      List.forall₂_map_left_iff.2 (List.forall₂_map_right_iff.2
        (hparts.imp fun _ _ hpart => hpart.trimWhile))
    show Except.toOption (if _ then _ else _) = Except.toOption (if _ then _ else _)
    generalize parts.map trim = args at htrim ⊢
    generalize parts'.map trim = args' at htrim ⊢
    have hhead : Stretched Piece.isBlank (args.headD []) (args'.headD []) := by
      cases htrim with
      | nil => exact .refl _
      | cons harg _ => exact harg
    have htail : PartsStretched args.tail args'.tail := by
      cases htrim with
      | nil => exact .nil
      | cons _ hargs => exact hargs
    rcases (text_stretched hhead).eq_or_exists with htext | ⟨hblank, hblank'⟩
    · rw [shown, shown, htext]
      split
      · rfl
      split
      · rfl
      · exact toOption_bind (readValue_stretched htail) fun value => rfl
    · simp only [shown, not_isIdentifier_of_isBlank hblank, not_isIdentifier_of_isBlank hblank',
        Bool.not_false, if_true]
      split <;> split <;> rfl

/-! ## Names among the arguments -/

/-- Arguments in which one blank is doubled mention the same names. -/
theorem mentions_stretched (h : Stretched Piece.isBlank ps ps') (names : List (List Char))
    (word : List Char) : mentions names word ps' = mentions names word ps := by
  induction h generalizing word with
  | refl ps => rfl
  | @blank p ps hp =>
    cases p with
    | char c =>
      have hname := not_isNameChar_of_isBlank hp
      simp [mentions, hname, mentions.named]
    | literal => cases hp
  | @cons p ps ps' _ ih =>
    cases p with
    | char c => rw [mentions, mentions, ih, ih]
    | literal q body => rw [mentions, mentions, ih]

end Argument

end FlashStrings
