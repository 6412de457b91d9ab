import FlashStrings.Proofs.Invocation.Blanks
import FlashStrings.Proofs.Invocation.Said

/-!
# Contents of literals

Arguments are read without a look into their literals.  `Piece.Alike R` says that two
pieces are the same but for the content of a string literal, where the contents are in the
relation `R`.  Every function that reads arguments keeps this relation, so arguments that
say something say it also with other contents (`Argument.PiecesSay.exists_alike`): about the
same identifier, for the same codes, with texts that are put together from related
contents.  Only a code that is given two texts may then be given different ones.
-/

namespace FlashStrings

variable {R : List Char → List Char → Prop}

/-- The same piece, but for the contents of a string literal, which are related. -/
inductive Piece.Alike (R : List Char → List Char → Prop) : Piece → Piece → Prop where
  | char (c : Char) : Alike R (.char c) (.char c)
  | literal {body body' : List Char} :
    R body body' → Alike R (.literal '"' body) (.literal '"' body')
  | other {q : Char} {body : List Char} : q ≠ '"' → Alike R (.literal q body) (.literal q body)

/-- Pieces of which each is like the other in its place. -/
abbrev PiecesAlike (R : List Char → List Char → Prop) : List Piece → List Piece → Prop :=
  List.Forall₂ (Piece.Alike R)

/-- Texts that are put together from related contents. -/
def TextAlike (R : List Char → List Char → Prop) (text text' : String) : Prop :=
  ∃ contents contents', List.Forall₂ R contents contents' ∧
    text = String.ofList (concatSegments contents) ∧
    text' = String.ofList (concatSegments contents')

/-- The same is said, with other texts. -/
structure Said.Alike (R : List Char → List Char → Prop) (said said' : Said) : Prop where
  fallback : Option.Rel (TextAlike R) said.fallback said'.fallback
  pairs : List.Forall₂ (fun pair pair' => pair.1 = pair'.1 ∧ TextAlike R pair.2 pair'.2)
    said.pairs said'.pairs

/-- The contents of string defines are related to themselves. -/
def Defines.Keep (R : List Char → List Char → Prop) (defines : Defines) : Prop :=
  ∀ name content, defines.get? name = some content → R content.toList content.toList

theorem forall₂_dropWhile {α : Type} {S : α → α → Prop} {p : α → Bool} {s t : List α}
    (hp : ∀ a b, S a b → p a = p b) (h : List.Forall₂ S s t) :
    List.Forall₂ S (s.dropWhile p) (t.dropWhile p) := by
  induction h with
  | nil => exact .nil
  | @cons a b s t hab hst ih =>
    rw [List.dropWhile_cons, List.dropWhile_cons, hp a b hab]
    split
    · exact ih
    · exact .cons hab hst

theorem forall₂_dropLast {α : Type} {S : α → α → Prop} {s t : List α} (h : List.Forall₂ S s t) :
    List.Forall₂ S s.dropLast t.dropLast := by
  rw [List.dropLast_eq_take, List.dropLast_eq_take, h.length_eq]
  exact List.forall₂_take _ h

namespace Argument

variable {defines : Defines} {ps ps' : List Piece} {identifier : String} {said : Said}

/-! ## Pieces -/

theorem isEmpty_alike (h : PiecesAlike R ps ps') : ps'.isEmpty = ps.isEmpty := by
  cases h <;> rfl

theorem trim_alike (h : PiecesAlike R ps ps') : PiecesAlike R (trim ps) (trim ps') := by
  have hblank : ∀ p p', Piece.Alike R p p' → p.isBlank = p'.isBlank := by
    rintro _ _ (_ | _ | _) <;> rfl
  have hfront := forall₂_dropWhile hblank h
  exact List.forall₂_reverse_iff.2 (forall₂_dropWhile hblank (List.forall₂_reverse_iff.2 hfront))

/-- Pieces without a string literal are the same. -/
theorem eq_of_alike (h : PiecesAlike R ps ps') (hquote : '"' ∉ text ps) : ps' = ps := by
  induction h with
  | nil => rfl
  | @cons p p' ps ps' hp _ ih =>
    rw [ih fun hmem => hquote (List.mem_append_right _ hmem)]
    cases hp with
    | char c => rfl
    | literal => exact absurd (List.mem_append_left _ List.mem_cons_self) hquote
    | other => rfl

theorem quote_mem_alike (h : PiecesAlike R ps ps') (hquote : '"' ∈ text ps) : '"' ∈ text ps' := by
  induction h with
  | nil => exact hquote
  | @cons p p' ps ps' hp _ ih =>
    rcases List.mem_append.1 hquote with hmem | hmem
    · cases hp with
      | char c => exact List.mem_append_left _ hmem
      | literal => exact List.mem_append_left _ List.mem_cons_self
      | other => exact List.mem_append_left _ hmem
    · exact List.mem_append_right _ (ih hmem)

/-- Parts of which each is like the other in its place. -/
abbrev PartsAlike (R : List Char → List Char → Prop) :
    List (List Piece) → List (List Piece) → Prop :=
  List.Forall₂ (PiecesAlike R)

theorem pushFirst_alike {p p' : Piece} (hp : Piece.Alike R p p') {parts parts' : List (List Piece)}
    (h : PartsAlike R parts parts') : PartsAlike R (pushFirst p parts) (pushFirst p' parts') := by
  cases h with
  | nil => exact .cons (.cons hp .nil) .nil
  | cons hpart hparts => exact .cons (.cons hp hpart) hparts

theorem split_alike (h : PiecesAlike R ps ps') (closed : Bool) (depth : Nat) :
    SameError (PartsAlike R) (split closed depth ps) (split closed depth ps') := by
  induction h generalizing depth with
  | nil =>
    rw [split]
    split
    · exact .inl ⟨_, rfl, rfl⟩
    split
    · exact .inl ⟨_, rfl, rfl⟩
    · exact .inr ⟨_, _, rfl, rfl, .cons .nil .nil⟩
  | @cons p p' ps ps' hp h ih =>
    have hpush (depth : Nat) : SameError (PartsAlike R)
        ((split closed depth ps).map (pushFirst p)) ((split closed depth ps').map (pushFirst p')) :=
      (ih depth).map fun _ _ => pushFirst_alike hp
    cases hp with
    | literal => exact hpush depth
    | other => exact hpush depth
    | char c =>
      by_cases hopen : c = '('
      · subst hopen
        exact hpush (depth + 1)
      by_cases hclose : c = ')'
      · subst hclose
        cases depth with
        | zero => exact .inl ⟨_, rfl, rfl⟩
        | succ depth => exact hpush depth
      by_cases hcomma : c = ','
      · subst hcomma
        rw [split, split]
        split
        · exact (ih _).map fun _ _ hparts => .cons .nil hparts
        · exact hpush depth
      · have hne {d : Char} (hd : c ≠ d) : Piece.char c ≠ .char d := fun heq =>
          hd (Piece.char.inj heq)
        rw [split_of_ne (hne hopen) (hne hclose) (hne hcomma),
          split_of_ne (hne hopen) (hne hclose) (hne hcomma)]
        exact hpush depth

/-! ## Operands -/

theorem closesAtEnd_alike (h : PiecesAlike R ps ps') (depth : Nat) :
    closesAtEnd depth ps' = closesAtEnd depth ps := by
  induction h generalizing depth with
  | nil => rfl
  | @cons p p' ps ps' hp h ih =>
    cases hp with
    | literal => exact ih depth
    | other => exact ih depth
    | char c =>
      by_cases hopen : c = '('
      · subst hopen
        exact ih (depth + 1)
      by_cases hclose : c = ')'
      · subst hclose
        rw [closesAtEnd, closesAtEnd, isEmpty_alike h, ih]
      · have hskip (ps : List Piece) :
            closesAtEnd depth (.char c :: ps) = closesAtEnd depth ps := by
          rw [closesAtEnd]
          · exact fun heq => hopen (Piece.char.inj heq)
          · exact fun heq => hclose (Piece.char.inj heq)
        rw [hskip, hskip, ih]

theorem unwrap?_alike (h : PiecesAlike R ps ps') :
    Option.Rel (PiecesAlike R) (unwrap? ps) (unwrap? ps') := by
  have hnone {p : Piece} (hp : p ≠ .char '(') (ps : List Piece) : unwrap? (p :: ps) = none := by
    rw [unwrap?]
    rintro _ heq
    exact hp (List.cons.inj heq).1
  cases h with
  | nil => exact .none
  | @cons p p' ps ps' hp h =>
    cases hp with
    | literal => exact .none
    | other => exact .none
    | char c =>
      by_cases hopen : c = '('
      · subst hopen
        rw [unwrap?, unwrap?, closesAtEnd_alike h]
        split
        · exact .some (trim_alike (forall₂_dropLast h))
        · exact .none
      · have hne : Piece.char c ≠ .char '(' := fun heq => hopen (Piece.char.inj heq)
        rw [hnone hne, hnone hne]
        exact .none

theorem unwrap_alike (h : PiecesAlike R ps ps') : PiecesAlike R (unwrap ps) (unwrap ps') := by
  have hrel := unwrap?_alike h
  fun_induction unwrap ps generalizing ps' with
  | case1 ps inner hinner _ ih =>
    rw [hinner] at hrel
    cases hinner' : unwrap? ps' with
    | none =>
      rw [hinner'] at hrel
      cases hrel
    | some inner' =>
      rw [hinner'] at hrel
      obtain ⟨halike⟩ := hrel
      rw [unwrap_of_some hinner']
      exact ih halike (unwrap?_alike halike)
  | case2 ps hinner =>
    rw [hinner] at hrel
    cases hinner' : unwrap? ps' with
    | none => rwa [unwrap_of_none hinner']
    | some inner' =>
      rw [hinner'] at hrel
      cases hrel

theorem flush_alike (hdefines : defines.Keep R) (word : List Char)
    {contents contents' : List (List Char)} (h : List.Forall₂ R contents contents') :
    Option.Rel (List.Forall₂ R) (segments?.flush defines word contents)
      (segments?.flush defines word contents') := by
  unfold segments?.flush
  split
  · exact .some h
  · cases hget : defines.get? (String.ofList word.reverse) with
    | none => exact .none
    | some content => exact .some (.cons (hdefines _ _ hget) h)

theorem bind_alike {α β : Type} {S : α → α → Prop} {T : β → β → Prop} {x y : Option α}
    {f g : α → Option β} (h : Option.Rel S x y) (hf : ∀ a b, S a b → Option.Rel T (f a) (g b)) :
    Option.Rel T (x >>= f) (y >>= g) := by
  cases h with
  | none => exact .none
  | some h => exact hf _ _ h

theorem segments?_alike (hdefines : defines.Keep R) (h : PiecesAlike R ps ps') (word : List Char) :
    Option.Rel (List.Forall₂ R) (segments? defines word ps) (segments? defines word ps') := by
  induction h generalizing word with
  | nil => exact flush_alike hdefines word .nil
  | @cons p p' ps ps' hp h ih =>
    cases hp with
    | char c =>
      rw [segments?, segments?]
      split
      · exact ih _
      split
      · exact bind_alike (ih []) fun _ _ => flush_alike hdefines word
      · exact .none
    | literal hbody =>
      rw [segments?, segments?]
      exact bind_alike (ih []) fun _ _ hcontents =>
        flush_alike hdefines word (.cons hbody hcontents)
    | other hq =>
      rw [segments?, segments?]
      · exact .none
      · exact hq
      · exact hq

/-- Pieces that read as a code have no literal. -/
theorem eq_of_isLocaleCode (h : PiecesAlike R ps ps')
    (hcode : isLocaleCode (shown ps) = true ∨ isLocaleCode (shown ps') = true) : ps' = ps := by
  refine eq_of_alike h fun hquote => ?_
  rw [shown, shown, not_isLocaleCode_of_mem hquote (by decide),
    not_isLocaleCode_of_mem (quote_mem_alike h hquote) (by decide)] at hcode
  simp at hcode

/-- A word has no literal, and a text is put together from related contents. -/
theorem operand_alike (hdefines : defines.Keep R) (h : PiecesAlike R ps ps') :
    (∀ word, operand defines ps = .word word → operand defines ps' = .word word) ∧
      ∀ content, operand defines ps = .text content →
        ∃ content', operand defines ps' = .text content' ∧ TextAlike R content content' := by
  have hinner : PiecesAlike R (unwrap (trim ps)) (unwrap (trim ps')) := unwrap_alike (trim_alike h)
  rw [operand, operand]
  generalize unwrap (trim ps) = inner at hinner ⊢
  generalize unwrap (trim ps') = inner' at hinner ⊢
  rw [isEmpty_alike hinner]
  by_cases hempty : inner.isEmpty = true
  · rw [if_pos hempty, if_pos hempty]
    exact ⟨by rintro _ ⟨⟩, by rintro _ ⟨⟩⟩
  rw [if_neg hempty, if_neg hempty]
  by_cases hlocale : isLocaleCode (shown inner) = true
  · obtain rfl := eq_of_isLocaleCode hinner (.inl hlocale)
    rw [if_pos hlocale]
    cases hget : defines.get? (shown inner') with
    | none => exact ⟨fun _ hword => hword, by rintro _ ⟨⟩⟩
    | some stored =>
      refine ⟨fun _ hword => hword, fun content hcontent => ⟨content, hcontent, ?_⟩⟩
      obtain rfl := Operand.text.inj hcontent
      refine ⟨[stored.toList], [stored.toList], .cons (hdefines _ _ hget) .nil, ?_, ?_⟩
      · rw [concatSegments_singleton, String.ofList_toList]
      · rw [concatSegments_singleton, String.ofList_toList]
  · have hlocale' : ¬isLocaleCode (shown inner') = true := fun hcode =>
      hlocale (eq_of_isLocaleCode hinner (.inr hcode) ▸ hcode)
    rw [if_neg hlocale, if_neg hlocale']
    have hsegments := segments?_alike hdefines hinner []
    generalize segments? defines [] inner = found at hsegments ⊢
    generalize segments? defines [] inner' = found' at hsegments ⊢
    cases hsegments with
    | none => exact ⟨by rintro _ ⟨⟩, by rintro _ ⟨⟩⟩
    | some hcontents =>
      refine ⟨by rintro _ ⟨⟩, fun content hcontent => ⟨_, rfl, _, _, hcontents, ?_, rfl⟩⟩
      exact (Operand.text.inj hcontent).symm

/-! ## What is said -/

/-- A label and what is behind its colon. -/
def LabelAlike (R : List Char → List Char → Prop) (found found' : List Piece × List Piece) : Prop :=
  PiecesAlike R found.1 found'.1 ∧ PiecesAlike R found.2 found'.2

theorem label?_alike (h : PiecesAlike R ps ps') (depth : Nat) :
    Option.Rel (LabelAlike R) (label? depth ps) (label? depth ps') := by
  induction h generalizing depth with
  | nil => exact .none
  | @cons p p' ps ps' hp h ih =>
    have hpush (depth : Nat) : Option.Rel (LabelAlike R) (label?.push p (label? depth ps))
        (label?.push p' (label? depth ps')) := by
      have hfound := ih depth
      generalize label? depth ps = found at hfound ⊢
      generalize label? depth ps' = found' at hfound ⊢
      cases hfound with
      | none => exact .none
      | some hfound => exact .some ⟨.cons hp hfound.1, hfound.2⟩
    cases hp with
    | literal => exact hpush depth
    | other => exact hpush depth
    | char c =>
      by_cases hcolon : c = ':'
      · subst hcolon
        rw [label?, label?]
        split
        · exact .some ⟨.nil, h⟩
        · exact hpush depth
      by_cases hopen : c = '('
      · subst hopen
        exact hpush (depth + 1)
      by_cases hclose : c = ')'
      · subst hclose
        exact hpush (depth - 1)
      · have hskip (ps : List Piece) :
            label? depth (.char c :: ps) = label?.push (.char c) (label? depth ps) := by
          rw [label?]
          · exact fun heq => hcolon (Piece.char.inj heq)
          · exact fun heq => hopen (Piece.char.inj heq)
          · exact fun heq => hclose (Piece.char.inj heq)
        rw [hskip, hskip]
        exact hpush depth

/-- Pairs of the same codes, with other texts. -/
abbrev PairsAlike (R : List Char → List Char → Prop) :
    List (String × String) → List (String × String) → Prop :=
  List.Forall₂ fun pair pair' => pair.1 = pair'.1 ∧ TextAlike R pair.2 pair'.2

theorem label?_eq_none_alike (h : PiecesAlike R ps ps') :
    label? 0 ps' = none ↔ label? 0 ps = none := by
  have hfound := label?_alike h 0
  generalize label? 0 ps = found at hfound ⊢
  generalize label? 0 ps' = found' at hfound ⊢
  cases hfound with
  | none => exact Iff.rfl
  | some => exact ⟨nofun, nofun⟩

/-- The label of codes is the same. -/
theorem label?_eq_some_alike {label rest : List Piece} {codes : List String}
    (h : PiecesAlike R ps ps') (hlabel : label? 0 ps = some (label, rest))
    (hcodes : localeCodes (text label) = .ok codes) :
    ∃ rest', label? 0 ps' = some (label, rest') ∧ PiecesAlike R rest rest' := by
  have hrel := label?_alike h 0
  rw [hlabel] at hrel
  cases hlabel' : label? 0 ps' with
  | none =>
    rw [hlabel'] at hrel
    cases hrel
  | some found =>
    obtain ⟨label', rest'⟩ := found
    rw [hlabel'] at hrel
    obtain ⟨hsame, hrest⟩ := hrel
    obtain rfl : label' = label := eq_of_alike hsame fun hquote =>
      localeCodes_ne_ok hquote (by decide) codes hcodes
    exact ⟨rest', rfl, hrest⟩

variable {pending : List String} {args args' : List (List Piece)} {pairs : List (String × String)}

theorem Clauses.exists_alike (h : Clauses defines pending args pairs) (hdefines : defines.Keep R)
    (hargs : PartsAlike R args args') :
    ∃ pairs', Clauses defines pending args' pairs' ∧ PairsAlike R pairs pairs' := by
  induction h generalizing args' with
  | nil =>
    cases hargs
    exact ⟨[], .nil, .nil⟩
  | code hlabel hoperand _ ih =>
    cases hargs with
    | cons harg hargs =>
      obtain ⟨pairs', hclauses, hpairs⟩ := ih hargs
      exact ⟨pairs', .code ((label?_eq_none_alike harg).2 hlabel)
        ((operand_alike hdefines harg).1 _ hoperand) hclauses, hpairs⟩
  | @labelled pending arg label rest args pairs codes content hlabel hcodes hoperand _ ih =>
    cases hargs with
    | cons harg hargs =>
      obtain ⟨pairs', hclauses, hpairs⟩ := ih hargs
      obtain ⟨rest', hlabel', hrest⟩ := label?_eq_some_alike harg hlabel hcodes
      obtain ⟨content', hoperand', hcontent⟩ := (operand_alike hdefines hrest).2 _ hoperand
      refine ⟨_, .labelled hlabel' hcodes hoperand' hclauses, List.rel_append ?_ hpairs⟩
      rw [List.forall₂_map_left_iff, List.forall₂_map_right_iff]
      exact List.forall₂_same.2 fun _ _ => ⟨rfl, hcontent⟩

theorem ValueSays.exists_alike (h : ValueSays defines args said) (hdefines : defines.Keep R)
    (hargs : PartsAlike R args args') :
    ∃ said', ValueSays defines args' said' ∧ said.Alike R said' := by
  cases h with
  | nothing =>
    cases hargs with
    | cons harg hargs =>
      cases harg
      cases hargs
      exact ⟨_, .nothing, .none, .nil⟩
  | clauses hfirst hclauses =>
    obtain ⟨pairs', hclauses', hpairs⟩ := hclauses.exists_alike hdefines hargs
    refine ⟨_, .clauses ?_ hclauses', .none, hpairs⟩
    cases hargs with
    | nil => exact nofun
    | cons harg _ =>
      rintro _ ⟨⟩
      exact mt (label?_eq_none_alike harg).1 (hfirst _ rfl)
  | fallback hlabel hoperand hclauses =>
    cases hargs with
    | cons harg hargs =>
      obtain ⟨pairs', hclauses', hpairs⟩ := hclauses.exists_alike hdefines hargs
      obtain ⟨content', hoperand', hcontent⟩ := (operand_alike hdefines harg).2 _ hoperand
      exact ⟨_, .fallback ((label?_eq_none_alike harg).2 hlabel) hoperand' hclauses',
        .some hcontent, hpairs⟩

/-- What arguments say is said with other contents too, with other texts. -/
theorem PiecesSay.exists_alike (h : PiecesSay defines ps identifier said)
    (hdefines : defines.Keep R) (hps : PiecesAlike R ps ps') :
    ∃ said', PiecesSay defines ps' identifier said' ∧ said.Alike R said' := by
  obtain @⟨first, others, hsplit, hshown, hidentifier, hvalue⟩ := h
  rcases split_alike hps true 0 with ⟨e, herror, -⟩ | ⟨parts, parts', hok, hsplit', hparts⟩
  · cases hsplit.symm.trans herror
  · obtain rfl := Except.ok.inj (hsplit.symm.trans hok)
    cases hparts with
    | @cons _ first' _ others' hfirst hothers =>
      have hsame : trim first' = trim first := by
        refine eq_of_alike (trim_alike hfirst) fun hquote => ?_
        rw [← hshown, shown, not_isIdentifier_of_mem hquote (by decide)] at hidentifier
        cases hidentifier
      have hargs : PartsAlike R (others.map trim) (others'.map trim) := by
        rw [PartsAlike, List.forall₂_map_left_iff, List.forall₂_map_right_iff]
        exact hothers.imp fun _ _ => trim_alike
      obtain ⟨said', hsaid', halike⟩ := hvalue.exists_alike hdefines hargs
      exact ⟨said', .intro hsplit' (by rw [hsame, hshown]) hidentifier hsaid', halike⟩

/-- The names among the arguments are the same. -/
theorem mentions_alike (h : PiecesAlike R ps ps') (names : List (List Char)) (word : List Char) :
    mentions names word ps' = mentions names word ps := by
  induction h generalizing word with
  | nil => rfl
  | @cons p p' ps ps' hp _ ih =>
    cases hp with
    | char c => rw [mentions, mentions, ih, ih]
    | literal => rw [mentions, mentions, ih]
    | other => rw [mentions, mentions, ih]

end Argument

/-! ## Values -/

/-- The same keys have texts in both values, and these are related.  The wildcard may be a
key in one of them alone, where it says what the fallback says. -/
structure Value.Alike (S : String → String → Prop) (v w : Value) : Prop where
  texts : ∀ key, key ≠ some wildcardLocale → Option.Rel S (v.at? key) (w.at? key)
  textFor : ∀ code, Option.Rel S (v.textFor code) (w.textFor code)

namespace Value

variable {S T : String → String → Prop} {v w : Value}

theorem textFor_eq (v : Value) (code : String) :
    v.textFor code = ((v.at? (some code)).or (v.at? (some wildcardLocale))).or (v.at? none) := by
  rw [textFor, at?, at?, at?]
  cases v.locales.get? code <;> cases v.locales.get? wildcardLocale <;> rfl

/-- The normal form changes no text that a locale gets. -/
theorem textFor_normalizeWildcard (v : Value) (code : String) :
    v.normalizeWildcard.textFor code = v.textFor code := by
  have hfallback : v.at? none = v.fallback := rfl
  have hwild (wild fallback : Option String) :
      (if fallback = none ∨ fallback = wild then none else wild).or (fallback.or wild) =
        wild.or fallback := by
    cases fallback with
    | none => cases wild <;> rfl
    | some first =>
      cases wild with
      | none => rfl
      | some text =>
        by_cases heq : first = text
        · simp [heq]
        · simp [heq]
  rw [textFor_eq, textFor_eq, at?_none_normalizeWildcard, at?_some_normalizeWildcard,
    at?_some_normalizeWildcard, hfallback]
  by_cases hcode : code = wildcardLocale
  · simp only [hcode, true_and, Option.or_self]
    exact hwild _ _
  · simp only [hcode, false_and, if_false, true_and]
    rw [Option.or_assoc, hwild, Option.or_assoc]

theorem or_alike {x x' y y' : Option String} (h : Option.Rel S x x') (h' : Option.Rel S y y') :
    Option.Rel S (x.or y) (x'.or y') := by
  cases h with
  | none => exact h'
  | some h => exact .some h

theorem imp_alike {x x' : Option String} (h : Option.Rel S x x')
    (hS : ∀ text text', S text text' → T text text') : Option.Rel T x x' := by
  cases h with
  | none => exact .none
  | some h => exact .some (hS _ _ h)

theorem Alike.imp (h : v.Alike S w) (hS : ∀ text text', S text text' → T text text') :
    v.Alike T w where
  texts key hkey := imp_alike (h.texts key hkey) hS
  textFor code := imp_alike (h.textFor code) hS

theorem isSome_alike {x x' : Option String} (h : Option.Rel S x x') : x'.isSome = x.isSome := by
  cases h <;> rfl

theorem alike_normalizeWildcard (h : ∀ key, Option.Rel S (v.at? key) (w.at? key)) :
    v.normalizeWildcard.Alike S w.normalizeWildcard where
  texts key hkey := by
    cases key with
    | none =>
      rw [at?_none_normalizeWildcard, at?_none_normalizeWildcard]
      exact or_alike (h none) (h _)
    | some code =>
      have hcode : code ≠ wildcardLocale := fun heq => hkey (congrArg some heq)
      rw [at?_some_normalizeWildcard, at?_some_normalizeWildcard, if_neg (fun hw => hcode hw.1),
        if_neg (fun hw => hcode hw.1)]
      exact h _
  textFor code := by
    rw [textFor_normalizeWildcard, textFor_normalizeWildcard, textFor_eq, textFor_eq]
    exact or_alike (or_alike (h _) (h _)) (h _)

end Value

/-- Values that hold what is said alike are alike. -/
theorem Said.Alike.at? {said said' : Said} {v w : Value} (h : said.Alike R said')
    (hv : Argument.assignAll { fallback := said.fallback } said.pairs = .ok v)
    (hw : Argument.assignAll { fallback := said'.fallback } said'.pairs = .ok w)
    (key : Option String) : Option.Rel (TextAlike R) (v.at? key) (w.at? key) := by
  obtain ⟨hvfallback, hvgives⟩ := gives_of_assignAll hv
  obtain ⟨hwfallback, hwgives⟩ := gives_of_assignAll hw
  cases key with
  | none =>
    show Option.Rel _ v.fallback w.fallback
    rw [hvfallback, hwfallback]
    exact h.fallback
  | some code =>
    have hto {text : String} (ht : v.locales.get? code = some text) :
        ∃ text', w.locales.get? code = some text' ∧ TextAlike R text text' := by
      obtain ⟨⟨_, text'⟩, hmem, rfl, halike⟩ :=
        exists_mem_of_forall₂ h.pairs ((hvgives code text).1 ht)
      exact ⟨text', (hwgives _ text').2 hmem, halike⟩
    have hfrom {text' : String} (ht : w.locales.get? code = some text') :
        ∃ text, v.locales.get? code = some text := by
      obtain ⟨⟨_, text⟩, hmem, rfl, -⟩ :=
        exists_mem_of_forall₂ h.pairs.flip ((hwgives code text').1 ht)
      exact ⟨text, (hvgives _ text).2 hmem⟩
    show Option.Rel _ (v.locales.get? code) (w.locales.get? code)
    cases hget : v.locales.get? code with
    | none =>
      cases hget' : w.locales.get? code with
      | none => exact .none
      | some text' =>
        obtain ⟨text, ht⟩ := hfrom hget'
        cases hget.symm.trans ht
    | some text =>
      obtain ⟨text', ht, halike⟩ := hto hget
      rw [ht]
      exact .some halike

end FlashStrings
