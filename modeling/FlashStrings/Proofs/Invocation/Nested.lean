import FlashStrings.Invocation.Piece
import FlashStrings.Proofs.Text.Quoted
import Mathlib.Data.List.Infix

/-!
# Literals and parentheses in a text

What stands outside of the literals of a text is a text again (`Outside`), and there is at
most one: a literal is over at the next quote of its kind without a backslash, so what
follows it is read as a text of its own (`Outside.of_append`).

A text can be split into arguments if its literals are closed and the parentheses outside of
them pair up (`IsSplittable`).  On the text outside this is one count that never falls below
zero and ends there (`isSplittable_iff`), and such a count goes on from character to
character (`Balances`).
-/

namespace FlashStrings

/-! ## Texts without their literals -/

/-- The content of a literal between two quotes `q`: a backslash takes the next character
along, and no newline and no `q` stands without one. -/
inductive IsContent (q : Char) : List Char → Prop where
  | nil : IsContent q []
  | escape {c : Char} {s : List Char} : IsContent q s → IsContent q ('\\' :: c :: s)
  | plain {c : Char} {s : List Char} :
      c ≠ '\\' → c ≠ '\n' → c ≠ q → IsContent q s → IsContent q (c :: s)

/-- The characters of a text that stand outside of its literals, all of which are closed. -/
inductive Outside : List Char → List Char → Prop where
  | nil : Outside [] []
  | char {c : Char} {s o : List Char} :
      ¬(c = '"' ∨ c = '\'') → Outside s o → Outside (c :: s) (c :: o)
  | literal {q : Char} {body s o : List Char} :
      (q = '"' ∨ q = '\'') → IsContent q body → Outside s o → Outside (q :: (body ++ q :: s)) o

/-- The text can be split into arguments. -/
structure IsSplittable (s : List Char) : Prop where
  /-- Every quote outside of a literal is the opening one of a closed literal. -/
  closes : ∀ front q rest o, s = front ++ q :: rest → Outside front o → (q = '"' ∨ q = '\'') →
    ∃ body more, rest = body ++ q :: more ∧ IsContent q body
  /-- No parenthesis outside of literals closes early. -/
  notEarly : ∀ front rest o, s = front ++ rest → Outside front o → o.count ')' ≤ o.count '('
  /-- The parentheses outside of literals are balanced. -/
  balanced : ∀ o, Outside s o → o.count '(' = o.count ')'

variable {q c : Char} {s t body o p front : List Char}

/-! ## Contents of literals -/

/-- A content is over at its closing quote. -/
theorem quoted?_of_isContent (hq : q = '"' ∨ q = '\'') (h : IsContent q body) (s : List Char) :
    quoted? q (body ++ q :: s) = some (body, s) := by
  induction h with
  | nil =>
    have hnewline : q ≠ '\n' := by rcases hq with rfl | rfl <;> decide
    have hbackslash : q ≠ '\\' := by rcases hq with rfl | rfl <;> decide
    rw [List.nil_append, quoted?, if_neg hnewline, if_pos rfl]
    · exact fun heq => absurd heq hbackslash
    · exact fun _ _ heq => absurd heq hbackslash
  | escape _ ih =>
    rw [List.cons_append, List.cons_append, quoted?, ih]
    rfl
  | plain hbackslash hnewline hquote _ ih =>
    rw [List.cons_append, quoted?_cons hbackslash hnewline hquote, ih]
    rfl

theorem isContent_of_quoted? (h : quoted? q s = some (body, t)) : IsContent q body := by
  fun_induction quoted? q s generalizing body with
  | case1 => cases h
  | case2 => cases h
  | case3 c s ih =>
    obtain ⟨⟨b, r⟩, hb, he⟩ := Option.map_eq_some_iff.1 h
    obtain ⟨rfl, rfl⟩ := Prod.mk.inj he
    exact .escape (ih hb)
  | case4 => cases h
  | case5 =>
    obtain ⟨rfl, rfl⟩ := Prod.mk.inj (Option.some.inj h)
    exact .nil
  | case6 c s hlone hpair hnewline hquote ih =>
    obtain ⟨⟨b, r⟩, hb, he⟩ := Option.map_eq_some_iff.1 h
    obtain ⟨rfl, rfl⟩ := Prod.mk.inj he
    exact .plain (ne_backslash_of_alone hlone hpair) hnewline hquote (ih hb)

theorem IsContent.append_inj {body' t : List Char} (hq : q = '"' ∨ q = '\'')
    (h : IsContent q body) (h' : IsContent q body') (heq : body ++ q :: s = body' ++ q :: t) :
    body = body' ∧ s = t := by
  have hread := quoted?_of_isContent hq h s
  rw [heq, quoted?_of_isContent hq h' t] at hread
  obtain ⟨rfl, rfl⟩ := Prod.mk.inj (Option.some.inj hread)
  exact ⟨rfl, rfl⟩

/-! ## What stands outside -/

namespace Outside

/-- The first character stands outside, or a literal begins with it. -/
theorem cons_cases (h : Outside (c :: s) o) :
    ¬(c = '"' ∨ c = '\'') ∧ (∃ p, o = c :: p ∧ Outside s p) ∨
      (c = '"' ∨ c = '\'') ∧ ∃ body t, s = body ++ c :: t ∧ IsContent c body ∧ Outside t o := by
  generalize hu : c :: s = u at h
  cases h with
  | nil => cases hu
  | char hc h =>
    obtain ⟨rfl, rfl⟩ := List.cons.inj hu
    exact .inl ⟨hc, _, rfl, h⟩
  | literal hq hbody h =>
    obtain ⟨rfl, rfl⟩ := List.cons.inj hu
    exact .inr ⟨hq, _, _, rfl, hbody, h⟩

theorem append (h : Outside s o) (ht : Outside t p) : Outside (s ++ t) (o ++ p) := by
  induction h with
  | nil => exact ht
  | char hc _ ih => exact .char hc ih
  | literal hq hbody _ ih =>
    rw [List.cons_append, List.append_assoc, List.cons_append]
    exact .literal hq hbody ih

/-- Behind closed literals the text goes on as a text of its own. -/
theorem of_append (h : Outside (s ++ t) o) (hs : Outside s p) :
    ∃ p', o = p ++ p' ∧ Outside t p' := by
  induction hs generalizing o with
  | nil => exact ⟨o, rfl, h⟩
  | char hc _ ih =>
    rcases h.cons_cases with ⟨-, _, rfl, hrest⟩ | ⟨hquote, -⟩
    · obtain ⟨p', rfl, hp'⟩ := ih hrest
      exact ⟨p', rfl, hp'⟩
    · exact absurd hquote hc
  | literal hq hbody _ ih =>
    rw [List.cons_append, List.append_assoc, List.cons_append] at h
    rcases h.cons_cases with ⟨hc, -⟩ | ⟨-, _, _, heq, hbody', hrest⟩
    · exact absurd hq hc
    · -- Both literals begin here, so they end at the same quote.
      obtain ⟨rfl, rfl⟩ := hbody.append_inj hq hbody' heq
      exact ih hrest

theorem unique (h : Outside s o) (h' : Outside s p) : o = p := by
  rw [← List.append_nil s] at h
  obtain ⟨p', rfl, hp'⟩ := h.of_append h'
  cases hp'
  exact List.append_nil p

/-- A beginning of what stands outside stands outside in a beginning of the text. -/
theorem exists_front (h : Outside s (o ++ p)) :
    ∃ front rest, s = front ++ rest ∧ Outside front o := by
  generalize hu : o ++ p = u at h
  induction h generalizing o with
  | nil =>
    obtain ⟨rfl, -⟩ := List.append_eq_nil_iff.1 hu
    exact ⟨[], [], rfl, .nil⟩
  | @char c s u hc _ ih =>
    cases o with
    | nil => exact ⟨[], c :: s, rfl, .nil⟩
    | cons d o =>
      obtain ⟨rfl, hrest⟩ := List.cons.inj hu
      obtain ⟨front, rest, rfl, hfront⟩ := ih hrest
      exact ⟨d :: front, rest, rfl, .char hc hfront⟩
  | @literal q body s u hq hbody _ ih =>
    obtain ⟨front, rest, rfl, hfront⟩ := ih hu
    refine ⟨q :: (body ++ q :: front), rest, ?_, .literal hq hbody hfront⟩
    rw [List.cons_append, List.append_assoc, List.cons_append]

theorem sublist (h : Outside s o) : o.Sublist s := by
  induction h with
  | nil => exact .slnil
  | char _ _ ih => exact ih.cons_cons _
  | literal _ _ _ ih => exact .cons _ ((ih.cons _).trans (List.sublist_append_right _ _))

end Outside

/-- A text whose quotes are closed wherever they stand outside of a literal consists of
literals and of what stands outside. -/
theorem exists_outside_of_closes
    (h : ∀ front q rest o, s = front ++ q :: rest → Outside front o → (q = '"' ∨ q = '\'') →
      ∃ body more, rest = body ++ q :: more ∧ IsContent q body) :
    ∃ o, Outside s o := by
  fun_induction Argument.read s with
  | case1 => exact ⟨[], .nil⟩
  | case2 q s hq body rest hbody _ _ _ _ ih =>
    obtain rfl := quoted?_eq_some hbody
    have hcontent := isContent_of_quoted? hbody
    obtain ⟨o, ho⟩ := ih fun front q' more p hrest hfront => by
      refine h (q :: (body ++ q :: front)) q' more p ?_ (.literal hq hcontent hfront)
      rw [hrest, List.cons_append, List.append_assoc, List.cons_append]
    exact ⟨o, .literal hq hcontent ho⟩
  | case3 q s hq hnone =>
    obtain ⟨body, more, rfl, hbody⟩ := h [] q s [] rfl .nil hq
    rw [quoted?_of_isContent hq hbody] at hnone
    cases hnone
  | case4 c s hc _ _ _ ih =>
    obtain ⟨o, ho⟩ := ih fun front q rest p hs hfront =>
      h (c :: front) q rest (c :: p) (congrArg (c :: ·) hs) (.char hc hfront)
    exact ⟨c :: o, .char hc ho⟩

/-! ## Parentheses -/

/-- From depth `d` on no parenthesis closes early, and the depth behind the text is `d'`. -/
structure Balances (d : Nat) (o : List Char) (d' : Nat) : Prop where
  notEarly : ∀ front, front <+: o → front.count ')' ≤ d + front.count '('
  ends : d + o.count '(' = o.count ')' + d'

namespace Balances

variable {d d' : Nat}

theorem nil (d : Nat) : Balances d [] d where
  notEarly := fun front hfront => by simp [List.prefix_nil.1 hfront]
  ends := by simp

/-- The count goes on behind the first character, if this does not close early. -/
theorem cons_iff : Balances d (c :: o) d' ↔
    ∃ d₁, d + [c].count '(' = [c].count ')' + d₁ ∧ Balances d₁ o d' := by
  constructor
  · rintro ⟨hearly, hends⟩
    have hfirst := hearly [c] (List.prefix_append [c] o)
    refine ⟨d + [c].count '(' - [c].count ')', by omega, fun front hfront => ?_, ?_⟩
    · have hnext := hearly (c :: front) (List.cons_prefix_cons.2 ⟨rfl, hfront⟩)
      rw [List.count_cons, List.count_cons] at hnext
      simp only [List.count_singleton] at hfirst ⊢
      omega
    · rw [List.count_cons, List.count_cons] at hends
      simp only [List.count_singleton] at hfirst ⊢
      omega
  · rintro ⟨d₁, hfirst, hearly, hends⟩
    simp only [List.count_singleton] at hfirst
    refine ⟨fun front hfront => ?_, ?_⟩
    · rcases List.prefix_cons_iff.1 hfront with rfl | ⟨front, rfl, htail⟩
      · exact Nat.zero_le _
      · have hnext := hearly front htail
        rw [List.count_cons, List.count_cons]
        omega
    · rw [List.count_cons, List.count_cons]
      omega

theorem opening_iff : Balances d ('(' :: o) d' ↔ Balances (d + 1) o d' := by
  rw [cons_iff]
  simp

theorem closing_iff : Balances d (')' :: o) d' ↔ ∃ d₁, d = d₁ + 1 ∧ Balances d₁ o d' := by
  rw [cons_iff]
  simp [Nat.add_comm 1]

theorem other_iff (hopen : c ≠ '(') (hclose : c ≠ ')') :
    Balances d (c :: o) d' ↔ Balances d o d' := by
  rw [cons_iff]
  simp [hopen, hclose]

theorem append {d₁ : Nat} (h : Balances d o d₁) (hp : Balances d₁ p d') :
    Balances d (o ++ p) d' := by
  induction o generalizing d with
  | nil =>
    obtain rfl : d = d₁ := by simpa using h.ends
    exact hp
  | cons c o ih =>
    obtain ⟨d₂, hfirst, ho⟩ := cons_iff.1 h
    exact cons_iff.2 ⟨d₂, hfirst, ih ho⟩

theorem of_append {d₁ : Nat} (h : Balances d (o ++ p) d') (ho : Balances d o d₁) :
    Balances d₁ p d' := by
  induction o generalizing d with
  | nil =>
    obtain rfl : d = d₁ := by simpa using ho.ends
    exact h
  | cons c o ih =>
    obtain ⟨d₂, hfirst, ho⟩ := cons_iff.1 ho
    obtain ⟨d₃, hfirst', h⟩ := cons_iff.1 h
    obtain rfl : d₂ = d₃ := by omega
    exact ih h ho

end Balances

/-- A text can be split if one count over what stands outside of its literals is zero again
at the end. -/
theorem isSplittable_iff : IsSplittable s ↔ ∃ o, Outside s o ∧ Balances 0 o 0 := by
  constructor
  · rintro ⟨hcloses, hearly, hbalanced⟩
    obtain ⟨o, ho⟩ := exists_outside_of_closes hcloses
    refine ⟨o, ho, fun front ⟨p, hp⟩ => ?_, ?_⟩
    · obtain ⟨text, rest, rfl, htext⟩ := Outside.exists_front (hp ▸ ho)
      rw [Nat.zero_add]
      exact hearly text rest front rfl htext
    · rw [Nat.zero_add, Nat.add_zero]
      exact hbalanced o ho
  · rintro ⟨o, ho, hearly, hends⟩
    constructor
    · intro front q rest p heq hfront hq
      subst heq
      obtain ⟨_, -, hrest⟩ := ho.of_append hfront
      rcases hrest.cons_cases with ⟨hne, -⟩ | ⟨-, body, more, rfl, hbody, -⟩
      · exact absurd hq hne
      · exact ⟨body, more, rfl, hbody⟩
    · intro front rest p heq hfront
      subst heq
      obtain ⟨p', rfl, -⟩ := ho.of_append hfront
      have hcount := hearly p (List.prefix_append p p')
      rwa [Nat.zero_add] at hcount
    · intro p hp
      obtain rfl := hp.unique ho
      rwa [Nat.zero_add, Nat.add_zero] at hends

/-- Behind a text that can be split and a comma, what follows can be split on its own. -/
theorem IsSplittable.of_append (h : IsSplittable (s ++ ',' :: t)) (hs : IsSplittable s) :
    IsSplittable t := by
  obtain ⟨o, ho, hbalances⟩ := isSplittable_iff.1 h
  obtain ⟨p, hp, hfront⟩ := isSplittable_iff.1 hs
  obtain ⟨rest, rfl, hrest⟩ := ho.of_append hp
  rcases hrest.cons_cases with ⟨-, back, rfl, hback⟩ | ⟨hquote, -⟩
  · have hcomma := hbalances.of_append hfront
    exact isSplittable_iff.2 ⟨back, hback, (Balances.other_iff (by decide) (by decide)).1 hcomma⟩
  · exact absurd hquote (by decide)

end FlashStrings
