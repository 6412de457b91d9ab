import FlashStrings.Text.Quoted

/-!
# Contents of one literal

A content is *quotable* if it can stand between two double quotes: it has no
double quote and no newline without a backslash, and every backslash has a
character behind it.  These are the contents that `quoted?` finds
(`isQuotable_of_quoted?`), and it finds each of them whatever stands behind the
closing quote (`quoted?_of_isQuotable`).
-/

namespace FlashStrings

/-- A content that can stand between two double quotes. -/
def isQuotable : List Char → Bool
  | [] => true
  | ['\\'] => false
  | '\\' :: _ :: s => isQuotable s
  | c :: s => c != '"' && c != '\n' && isQuotable s

variable {q c : Char} {s t content body rest : List Char}

/-- What the last equation of a reader of literals says of the first character. -/
theorem ne_backslash_of_alone (hlone : c = '\\' → s = [] → False)
    (hpair : ∀ d t, c = '\\' → s = d :: t → False) : c ≠ '\\' := by
  intro hc
  cases s with
  | nil => exact hlone hc rfl
  | cons d t => exact hpair d t hc rfl

theorem isQuotable_cons (hc : c ≠ '\\') (s : List Char) :
    isQuotable (c :: s) = (c != '"' && c != '\n' && isQuotable s) := by
  rw [isQuotable]
  · exact fun h => absurd h hc
  · exact fun _ _ h => absurd h hc

theorem quoted?_cons (hc : c ≠ '\\') (hnewline : c ≠ '\n') (hquote : c ≠ q) (s : List Char) :
    quoted? q (c :: s) = (quoted? q s).map fun (body, rest) => (c :: body, rest) := by
  rw [quoted?, if_neg hnewline, if_neg hquote]
  · exact fun h => absurd h hc
  · exact fun _ _ h => absurd h hc

/-- The content of a closed literal is closed by the next quote, whatever is behind it. -/
theorem quoted?_body (h : quoted? q s = some (body, rest)) (t : List Char) :
    quoted? q (body ++ q :: t) = some (body, t) := by
  fun_induction quoted? q s generalizing body with
  | case1 => cases h
  | case2 => cases h
  | case3 c s ih =>
    obtain ⟨⟨b, r⟩, hb, he⟩ := Option.map_eq_some_iff.1 h
    obtain ⟨rfl, rfl⟩ := Prod.mk.inj he
    rw [List.cons_append, List.cons_append, quoted?, ih hb]
    rfl
  | case4 => cases h
  | case5 s hlone hpair hnewline =>
    obtain ⟨rfl, rfl⟩ := Prod.mk.inj (Option.some.inj h)
    have hbackslash := ne_backslash_of_alone hlone hpair
    rw [List.nil_append, quoted?, if_neg hnewline, if_pos rfl]
    · exact fun hc => absurd hc hbackslash
    · exact fun _ _ hc => absurd hc hbackslash
  | case6 c s hlone hpair hnewline hquote ih =>
    obtain ⟨⟨b, r⟩, hb, he⟩ := Option.map_eq_some_iff.1 h
    obtain ⟨rfl, rfl⟩ := Prod.mk.inj he
    rw [List.cons_append, quoted?_cons (ne_backslash_of_alone hlone hpair) hnewline hquote, ih hb]
    rfl

/-- A closed literal is closed before any other text. -/
theorem quoted?_append (h : quoted? q s = some (body, rest)) (t : List Char) :
    quoted? q (s ++ t) = some (body, rest ++ t) := by
  rw [quoted?_eq_some h, List.append_assoc]
  exact quoted?_body h (rest ++ t)

/-- A quotable content ends where its literal is closed. -/
theorem quoted?_of_isQuotable (h : isQuotable content = true) (s : List Char) :
    quoted? '"' (content ++ '"' :: s) = some (content, s) := by
  fun_induction isQuotable content with
  | case1 => rfl
  | case2 => cases h
  | case3 c content ih =>
    rw [List.cons_append, List.cons_append, quoted?, ih h]
    rfl
  | case4 c content hlone hpair ih =>
    simp only [Bool.and_eq_true, bne_iff_ne] at h
    obtain ⟨⟨hquote, hnewline⟩, h⟩ := h
    rw [List.cons_append, quoted?_cons (ne_backslash_of_alone hlone hpair) hnewline hquote, ih h]
    rfl

/-- Behind a quotable text a literal is read on. -/
theorem quoted?_append_of_isQuotable (h : isQuotable s = true) (t : List Char) :
    quoted? '"' (s ++ t) = (quoted? '"' t).map fun (body, rest) => (s ++ body, rest) := by
  fun_induction isQuotable s with
  | case1 => simp
  | case2 => cases h
  | case3 c s ih =>
    rw [List.cons_append, List.cons_append, quoted?, ih h, Option.map_map]
    rfl
  | case4 c s hlone hpair ih =>
    simp only [Bool.and_eq_true, bne_iff_ne] at h
    obtain ⟨⟨hquote, hnewline⟩, h⟩ := h
    rw [List.cons_append, quoted?_cons (ne_backslash_of_alone hlone hpair) hnewline hquote, ih h,
      Option.map_map]
    rfl

theorem isQuotable_of_quoted? (h : quoted? '"' s = some (content, rest)) :
    isQuotable content = true := by
  fun_induction quoted? '"' s generalizing content with
  | case1 => cases h
  | case2 => cases h
  | case3 c s ih =>
    obtain ⟨⟨b, r⟩, hb, he⟩ := Option.map_eq_some_iff.1 h
    obtain ⟨rfl, rfl⟩ := Prod.mk.inj he
    show isQuotable b = true
    exact ih hb
  | case4 => cases h
  | case5 =>
    obtain ⟨rfl, rfl⟩ := Prod.mk.inj (Option.some.inj h)
    rfl
  | case6 c s hlone hpair hnewline hquote ih =>
    obtain ⟨⟨b, r⟩, hb, he⟩ := Option.map_eq_some_iff.1 h
    obtain ⟨rfl, rfl⟩ := Prod.mk.inj he
    rw [isQuotable_cons (ne_backslash_of_alone hlone hpair)]
    simp [hnewline, hquote, ih hb]

theorem isQuotable_append (hs : isQuotable s = true) (ht : isQuotable t = true) :
    isQuotable (s ++ t) = true := by
  fun_induction isQuotable s with
  | case1 => exact ht
  | case2 => cases hs
  | case3 c s ih => exact ih hs
  | case4 c s hlone hpair ih =>
    rw [List.cons_append, isQuotable_cons (ne_backslash_of_alone hlone hpair)]
    simp only [Bool.and_eq_true] at hs ⊢
    exact ⟨hs.1, ih hs.2⟩

theorem isQuotable_of_forall (h : ∀ c ∈ s, c ≠ '"' ∧ c ≠ '\\' ∧ c ≠ '\n') :
    isQuotable s = true := by
  induction s with
  | nil => rfl
  | cons c s ih =>
    obtain ⟨⟨hquote, hbackslash, hnewline⟩, hs⟩ := List.forall_mem_cons.1 h
    rw [isQuotable_cons hbackslash, ih hs]
    simp [hquote, hnewline]

example : isQuotable "a\\\"b, (c\\\n: d".toList = true := by decide
example : isQuotable "a\\\\\"b".toList = false := by decide

end FlashStrings
