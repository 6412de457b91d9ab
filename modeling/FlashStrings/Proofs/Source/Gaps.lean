import FlashStrings.Proofs.Source.Continuation
import FlashStrings.Proofs.Text.Class

/-!
# White space and comments

`Gap` says that a text is white space and comments.  Where the white space and comments at
the start of a text do not go to its end, they are a gap (`Lexeme.exists_gap`), and no name
goes on behind one (`Gap.head`).
-/

namespace FlashStrings

/-- A line that ends here is continued on the next one. -/
def Continues (s : List Char) : Prop := ['\\'] <:+ s ∨ ['\\', '\r'] <:+ s

/-- Every newline continues its line. -/
def Continued (s : List Char) : Prop := ∀ front back, s = front ++ '\n' :: back → Continues front

/-- White space and comments.  A newline ends a line comment unless it continues the line. -/
inductive Gap : List Char → Prop where
  | nil : Gap []
  | blank {c : Char} {s : List Char} : isCodeBlank c = true → Gap s → Gap (c :: s)
  | line {body s : List Char} : Continued body → ¬Continues body → Gap s →
    Gap ('/' :: '/' :: (body ++ '\n' :: s))
  | block {body s : List Char} : ¬['*', '/'] <:+: body → Gap s →
    Gap ('/' :: '*' :: (body ++ '*' :: '/' :: s))

variable {s u : List Char} {c d : Char} {n : Nat}

theorem Continues.append (h : Continues s) (u : List Char) : Continues (u ++ s) :=
  h.imp (·.trans (List.suffix_append u s)) (·.trans (List.suffix_append u s))

theorem not_continues_nil : ¬Continues [] := by simp [Continues]

theorem Continued.append (hu : Continued u) (hs : Continued s) : Continued (u ++ s) := by
  intro front back h
  rcases List.append_eq_append_iff.1 h with ⟨mid, rfl, hmid⟩ | ⟨mid, rfl, hmid⟩
  · exact (hs mid back hmid).append u
  · cases mid with
    | nil => exact absurd (hs [] back hmid.symm) not_continues_nil
    | cons c mid =>
      obtain ⟨rfl, -⟩ := List.cons.inj hmid
      exact hu front mid rfl

theorem continues_iff :
    Continues s ↔ ['\\'] <+: s.reverse ∨ ['\r', '\\'] <+: s.reverse := by
  rw [Continues, ← List.reverse_prefix, ← List.reverse_prefix]
  rfl

/-- Whether a line is continued is told by what stands on it. -/
theorem continues_newline (u : List Char) (h : Continues (u ++ '\n' :: s)) : Continues s := by
  rw [continues_iff] at h ⊢
  rw [List.reverse_append, List.reverse_cons, List.append_assoc] at h
  cases hs : s.reverse with
  | nil => simp [hs] at h
  | cons c front =>
    cases front with
    | nil => simpa [hs] using h
    | cons d front => simpa [hs] using h

/-- A character that ends no line continues it only where the rest of the line is empty or
a carriage return. -/
theorem continues_cons (h : Continues (c :: s)) :
    Continues s ∨ c = '\\' ∧ (s = [] ∨ s = ['\r']) := by
  rcases h with h | h
  · rcases List.suffix_cons_iff.1 h with h | h
    · obtain ⟨rfl, rfl⟩ := List.cons.inj h
      exact .inr ⟨rfl, .inl rfl⟩
    · exact .inl (.inl h)
  · rcases List.suffix_cons_iff.1 h with h | h
    · obtain ⟨rfl, rfl⟩ := List.cons.inj h
      exact .inr ⟨rfl, .inr rfl⟩
    · exact .inl (.inr h)

theorem continued_singleton (h : c ≠ '\n') : Continued [c] := by
  intro front back heq
  cases front with
  | nil => exact absurd (List.cons.inj heq).1 h
  | cons d front => simp at heq

theorem continued_newline (h : Continues s) (hs : '\n' ∉ s) : Continued (s ++ ['\n']) := by
  intro front back heq
  rcases List.append_eq_append_iff.1 heq with ⟨mid, rfl, hmid⟩ | ⟨mid, rfl, hmid⟩
  · cases mid with
    | nil => rwa [List.append_nil]
    | cons c mid => simp at hmid
  · cases mid with
    | nil => rwa [List.append_nil] at h
    | cons c mid =>
      obtain ⟨rfl, -⟩ := List.cons.inj hmid
      simp at hs

theorem Gap.of_newline (h : Gap ('\n' :: s)) : Gap s := by
  cases h with
  | blank hc hs => exact hs

namespace Lexeme

/-- A line comment goes to the end of the text or to a newline that ends it. -/
theorem exists_lineComment (s : List Char) :
    ∃ body rest, s = body ++ rest ∧ lineComment s = body.length ∧ Continued body ∧
      (rest = [] ∨ ¬Continues body ∧ ∃ t, rest = '\n' :: t) := by
  fun_induction lineComment s with
  | case1 => exact ⟨[], [], rfl, rfl, by simp [Continued], .inl rfl⟩
  | case2 s ih =>
    obtain ⟨body, rest, rfl, hlen, hbody, hrest⟩ := ih
    have hline : Continued ['\\', '\n'] :=
      continued_newline (.inl (List.suffix_refl ['\\'])) (by decide)
    exact ⟨['\\', '\n'] ++ body, rest, rfl, by simp [hlen], hline.append hbody,
      hrest.imp_right (And.imp_left (mt (continues_newline ['\\'])))⟩
  | case3 s ih =>
    obtain ⟨body, rest, rfl, hlen, hbody, hrest⟩ := ih
    have hline : Continued ['\\', '\r', '\n'] :=
      continued_newline (.inr (List.suffix_refl ['\\', '\r'])) (by decide)
    exact ⟨['\\', '\r', '\n'] ++ body, rest, rfl, by simp [hlen], hline.append hbody,
      hrest.imp_right (And.imp_left (mt (continues_newline ['\\', '\r'])))⟩
  | case4 s hnewline hreturn =>
    exact ⟨[], '\n' :: s, rfl, rfl, by simp [Continued], .inr ⟨not_continues_nil, s, rfl⟩⟩
  | case5 c s hnewline hreturn hne ih =>
    obtain ⟨body, rest, rfl, hlen, hbody, hrest⟩ := ih
    refine ⟨[c] ++ body, rest, rfl, by simp [hlen], (continued_singleton hne).append hbody,
      hrest.imp_right ?_⟩
    rintro ⟨hends, t, rfl⟩
    refine ⟨fun h => ?_, t, rfl⟩
    rcases continues_cons h with h | ⟨rfl, rfl | rfl⟩
    · exact hends h
    · exact hnewline t rfl rfl
    · exact hreturn t rfl rfl

/-- A block comment goes to the end of the text or through the first mark that ends it. -/
theorem exists_blockComment (s : List Char) :
    blockComment s = s.length ∨ ∃ body rest, s = body ++ '*' :: '/' :: rest ∧
      blockComment s = body.length + 2 ∧ ¬['*', '/'] <:+: body := by
  induction s with
  | nil => exact .inl rfl
  | cons c s ih =>
    by_cases hmark : c = '*' ∧ s.head? = some '/'
    · obtain ⟨rfl, hslash⟩ := hmark
      obtain ⟨rest, rfl⟩ := List.head?_eq_some_iff.1 hslash
      exact .inr ⟨[], rest, rfl, rfl, by simp⟩
    rw [blockComment_cons hmark]
    rcases ih with hall | ⟨body, rest, rfl, hlen, hbody⟩
    · exact .inl (by rw [hall, List.length_cons])
    · refine .inr ⟨c :: body, rest, rfl, by rw [hlen, List.length_cons], fun h => ?_⟩
      rcases List.infix_cons_iff.1 h with ⟨t, ht⟩ | h
      · obtain ⟨rfl, rfl⟩ := List.cons.inj ht
        exact hmark ⟨rfl, rfl⟩
      · exact hbody h

theorem comment?_cases (h : comment? s = some n) :
    (∃ t, s = '/' :: '/' :: t ∧ n = lineComment t + 2) ∨
      ∃ t, s = '/' :: '*' :: t ∧ n = blockComment t + 2 := by
  unfold comment? at h
  split at h
  · exact .inl ⟨_, rfl, (Option.some.inj h).symm⟩
  · exact .inr ⟨_, rfl, (Option.some.inj h).symm⟩
  · cases h

theorem trivia_of_isCodeBlank (hc : isCodeBlank c = true) (hcomment : comment? (c :: s) = none) :
    trivia (c :: s) = trivia s + 1 := by
  rw [trivia]
  split
  · next heq => simp [hcomment] at heq
  · rw [if_pos hc]

/-- White space and comments go to the end of the text or are a gap. -/
theorem exists_gap (s : List Char) :
    s.drop (trivia s) = [] ∨ ∃ gap rest, s = gap ++ rest ∧ trivia s = gap.length ∧ Gap gap := by
  fun_induction trivia s with
  | case1 => exact .inl rfl
  | case2 c s n hcomment hpos ih =>
    rw [← List.drop_drop]
    rcases ih with hall | ⟨gap, rest, hdrop, hlen, hgap⟩
    · exact .inl hall
    rw [hlen, hdrop]
    rcases comment?_cases hcomment with ⟨t, ht, rfl⟩ | ⟨t, ht, rfl⟩
    · rw [ht] at hdrop hlen ⊢
      obtain ⟨body, rest', rfl, hbody, hcontinued, hrest⟩ := exists_lineComment t
      rw [hbody] at hdrop hlen ⊢
      replace hdrop : rest' = gap ++ rest := by simpa using hdrop
      rcases hrest with rfl | ⟨hends, t, rfl⟩
      · exact .inl (by rw [← hdrop, List.drop_nil])
      · cases gap with
        | nil => simp [trivia_of_isCodeBlank (c := '\n') (s := t) rfl rfl] at hlen
        | cons d gap =>
          obtain ⟨rfl, rfl⟩ := List.cons.inj hdrop
          refine .inr ⟨'/' :: '/' :: (body ++ '\n' :: gap), rest, by simp, ?_, ?_⟩
          · simp
            omega
          · exact .line hcontinued hends hgap.of_newline
    · rw [ht] at hdrop hlen ⊢
      rcases exists_blockComment t with hall | ⟨body, rest', rfl, hbody, hclosed⟩
      · rw [hall] at hdrop
        replace hdrop : [] = gap ++ rest := by simpa using hdrop
        exact .inl (by rw [← hdrop, List.drop_nil])
      · rw [hbody] at hdrop hlen ⊢
        obtain rfl : rest' = gap ++ rest := by simpa using hdrop
        refine .inr ⟨'/' :: '*' :: (body ++ '*' :: '/' :: gap), rest, by simp, ?_,
          .block hclosed hgap⟩
        simp
        omega
  | case3 c s hcomment hblank ih =>
    rcases ih with hall | ⟨gap, rest, rfl, hlen, hgap⟩
    · exact .inl hall
    · exact .inr ⟨c :: gap, rest, rfl, by rw [hlen, List.length_cons], .blank hblank hgap⟩
  | case4 c s hcomment hblank => exact .inr ⟨[], c :: s, rfl, rfl, .nil⟩

theorem head?_lineComment (s : List Char) (h : (s.drop (lineComment s)).head? = some d) :
    d = '\n' := by
  obtain ⟨body, rest, rfl, hlen, -, rfl | ⟨-, t, rfl⟩⟩ := exists_lineComment s
  · rw [hlen, List.drop_left] at h
    cases h
  · rw [hlen, List.drop_left] at h
    exact (Option.some.inj h).symm

/-- The line of a directive goes to the end of the text or to a newline. -/
theorem head?_logicalLine (s : List Char) (h : (s.drop (logicalLine s)).head? = some d) :
    d = '\n' := by
  fun_induction logicalLine s with
  | case1 => cases h
  | case2 s ih => exact ih h
  | case3 s ih => exact ih h
  | case4 s => exact (Option.some.inj h).symm
  | case5 c s _ _ _ _ ih => exact ih (by rwa [List.drop_drop])

end Lexeme

/-- A gap begins with no name. -/
theorem Gap.head (h : Gap s) (rest : List Char) (hc : (s ++ '(' :: rest).head? = some c) :
    isNameChar c = false := by
  cases h with
  | nil =>
    obtain rfl := Option.some.inj hc
    rfl
  | blank hblank =>
    obtain rfl := Option.some.inj hc
    exact not_isNameChar_of_isBlank (isBlank_of_isCodeBlank hblank)
  | line =>
    obtain rfl := Option.some.inj hc
    rfl
  | block =>
    obtain rfl := Option.some.inj hc
    rfl

end FlashStrings
