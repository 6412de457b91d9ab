import FlashStrings.Proofs.Literal.Escaped

/-!
# Continued lines in a literal

A compiler removes every backslash before a newline before it reads anything else
(`spliced`).  A content keeps them as they were written, and the three readers of escape
sequences do not know them: for each, a continuation is an escape sequence of its own.

That makes no difference between two escape sequences of the content, unless an
initialiser is broken there.  A break would stand between a character outside of ASCII and
a hexadecimal digit (`NeedsBreak`), and a continuation in between hides the digit.
Everywhere else the initialisers with and without the continuation are the same to a
compiler, also among adjacent literals (`spliced_initializer_concatSegments`).
-/

namespace FlashStrings

/-- A backslash before a newline. -/
def continuation : List Char := ['\\', '\n']

/-- The text without its continuations. -/
def spliced : List Char → List Char
  | [] => []
  | '\\' :: '\n' :: s => spliced s
  | c :: s => c :: spliced s

/-- The bytes of a sequence of literals whose lines may be continued. -/
def CLiteral.compiled? (s : List Char) : Option Bytes := value? (spliced s)

/-- The place between two texts is in no escape sequence. -/
structure BetweenEscapes (u v : List Char) : Prop where
  isClosed : IsClosed u
  /-- An open sequence does not take the next character. -/
  not_absorbs : ∀ c ∈ v.head?, (Escape.after u).absorbs c = false

/-- Behind a character that is written as the escapes of its bytes stands a hexadecimal
digit. -/
def NeedsBreak (u v : List Char) : Prop :=
  ∃ front wide, u = front ++ [wide] ∧ IsClosed front ∧ isAscii wide = false ∧
    ∃ c ∈ v.head?, isHexDigit c = true

variable {s t u v : List Char} {c : Char}

/-! ## Spliced texts -/

theorem spliced_cons (h : ¬(c = '\\' ∧ s.head? = some '\n')) :
    spliced (c :: s) = c :: spliced s := by
  rw [spliced]
  rintro t rfl rfl
  exact h ⟨rfl, rfl⟩

/-- A text is spliced in two parts, unless a continuation goes across. -/
theorem spliced_append (ht : t.head? ≠ some '\n') (s : List Char) :
    spliced (s ++ t) = spliced s ++ spliced t := by
  fun_induction spliced s with
  | case1 => rfl
  | case2 s ih => exact ih
  | case3 c s hpair ih =>
    rw [List.cons_append, List.cons_append, spliced_cons, ih]
    rintro ⟨rfl, hhead⟩
    cases s with
    | nil => exact ht hhead
    | cons d s =>
      obtain rfl := Option.some.inj hhead
      exact hpair s rfl rfl

/-- A continuation makes no difference. -/
theorem spliced_continuation (ht : t.head? ≠ some '\n') (s : List Char) :
    spliced (s ++ (continuation ++ t)) = spliced (s ++ t) := by
  have hhead : (continuation ++ t).head? ≠ some '\n' := by simp [continuation]
  have hcontinuation : spliced (continuation ++ t) = spliced t := rfl
  rw [spliced_append hhead, hcontinuation, spliced_append ht]

/-! ## Escape sequences -/

/-- Behind a closed text a continuation is a complete sequence. -/
theorem after_continuation (h : IsClosed u) : Escape.after (u ++ continuation) = .outside := by
  rw [Escape.after_append, continuation, List.foldl_cons, CLiteral.next_eq_begun.2 ⟨h, rfl⟩]
  rfl

/-- Behind a place in no sequence, the reader is where it would be without the text before
the place. -/
theorem BetweenEscapes.after_append (h : BetweenEscapes u v) (hv : v ≠ []) :
    Escape.after (u ++ v) = Escape.after v := by
  cases v with
  | nil => exact absurd rfl hv
  | cons c v =>
    rw [Escape.after_append, List.foldl_cons,
      CLiteral.next_of_not_absorbs h.isClosed (h.not_absorbs c rfl)]
    rfl

theorem after_continuation_append (h : IsClosed u) (v : List Char) :
    Escape.after (u ++ (continuation ++ v)) = Escape.after v := by
  rw [← List.append_assoc, Escape.after_append, after_continuation h]
  rfl

/-! ## Adjacent contents -/

/-- What is put behind a content depends on its open escape sequence alone. -/
theorem exists_foldl_appendSegment (h : Escape.after s = Escape.after t)
    (segments : List (List Char)) :
    ∃ more, segments.foldl appendSegment s = s ++ more ∧
      segments.foldl appendSegment t = t ++ more := by
  induction segments generalizing s t with
  | nil => exact ⟨[], by simp, by simp⟩
  | cons segment segments ih =>
    have hstep : ∃ part, appendSegment s segment = s ++ part ∧
        appendSegment t segment = t ++ part := by
      cases segment with
      | nil => exact ⟨[], by simp [appendSegment], by simp [appendSegment]⟩
      | cons c segment =>
        simp only [appendSegment, h]
        split
        · exact ⟨literalBreak ++ c :: segment, by simp, by simp⟩
        · exact ⟨c :: segment, rfl, rfl⟩
    obtain ⟨part, hs, ht⟩ := hstep
    have hafter : Escape.after (s ++ part) = Escape.after (t ++ part) := by
      rw [Escape.after_append, Escape.after_append, h]
    obtain ⟨more, hs', ht'⟩ := ih hafter
    refine ⟨part ++ more, ?_, ?_⟩
    · rw [List.foldl_cons, hs, hs', List.append_assoc]
    · rw [List.foldl_cons, ht, ht', List.append_assoc]

theorem isClosed_concatSegments {segments : List (List Char)}
    (h : ∀ segment ∈ segments, IsClosed segment) : IsClosed (concatSegments segments) := by
  have hfold : ∀ content, IsClosed content → IsClosed (segments.foldl appendSegment content) := by
    induction segments with
    | nil => exact fun content hcontent => hcontent
    | cons segment segments ih =>
      intro content hcontent
      obtain ⟨hsegment, hsegments⟩ := List.forall_mem_cons.1 h
      exact ih hsegments _ (hcontent.appendSegment hsegment).1
  exact hfold [] isClosed_nil

/-- Behind a closed content a literal break ends every sequence. -/
theorem after_literalBreak (h : IsClosed s) : Escape.after (s ++ literalBreak) = .outside := by
  have hquote := CLiteral.next_of_not_absorbs h (CLiteral.absorbs_quote (Escape.after s))
  rw [Escape.after_append]
  show ((((Escape.after s).next '"').next ' ').next '"') = .outside
  rw [hquote]
  rfl

/-- A segment is put behind a closed content where no escape sequence goes across. -/
theorem exists_appendSegment (hs : IsClosed s) (hu : u ≠ []) :
    ∃ front, BetweenEscapes front u ∧
      ∀ t, appendSegment s (u ++ t) = front ++ (u ++ t) := by
  obtain ⟨c, u, rfl⟩ := List.exists_cons_of_ne_nil hu
  cases hc : (Escape.after s).absorbs c with
  | true =>
    have hbreak := after_literalBreak hs
    refine ⟨s ++ literalBreak, ⟨hs.append isClosed_literalBreak, fun d _ => by rw [hbreak]; rfl⟩,
      fun t => ?_⟩
    rw [List.cons_append, appendSegment, if_pos hc]
  | false =>
    refine ⟨s, ⟨hs, ?_⟩, fun t => ?_⟩
    · rintro _ ⟨⟩
      exact hc
    · rw [List.cons_append, appendSegment, if_neg (by simp [hc])]

/-- A place in no escape sequence of a segment is in none of the whole content. -/
theorem BetweenEscapes.append_left (h : BetweenEscapes u v) (hs : BetweenEscapes s u)
    (hu : u ≠ []) : BetweenEscapes (s ++ u) v where
  isClosed := hs.isClosed.append h.isClosed
  not_absorbs := by
    rw [hs.after_append hu]
    exact h.not_absorbs

theorem exists_concatSegments {before : List (List Char)}
    (hbefore : ∀ segment ∈ before, IsClosed segment) (hu : u ≠ []) (hv : v ≠ [])
    (h : BetweenEscapes u v) (after : List (List Char)) :
    ∃ front more, BetweenEscapes front u ∧
      concatSegments (before ++ (u ++ v) :: after) = front ++ u ++ (v ++ more) ∧
      concatSegments (before ++ (u ++ (continuation ++ v)) :: after) =
        front ++ u ++ (continuation ++ (v ++ more)) := by
  obtain ⟨front, hfront, happend⟩ :=
    exists_appendSegment (isClosed_concatSegments hbefore) hu
  have hplace : BetweenEscapes (front ++ u) v := h.append_left hfront hu
  have hafter : Escape.after (front ++ u ++ v) =
      Escape.after (front ++ u ++ (continuation ++ v)) := by
    rw [hplace.after_append hv, after_continuation_append hplace.isClosed]
  obtain ⟨more, hplain, hcontinued⟩ := exists_foldl_appendSegment hafter after
  refine ⟨front, more, hfront, ?_, ?_⟩
  · rw [concatSegments, List.foldl_append, List.foldl_cons]
    show after.foldl appendSegment (appendSegment (concatSegments before) _) = _
    rw [happend, ← List.append_assoc front, hplain, List.append_assoc]
  · rw [concatSegments, List.foldl_append, List.foldl_cons]
    show after.foldl appendSegment (appendSegment (concatSegments before) _) = _
    rw [happend, ← List.append_assoc front, hcontinued]
    simp only [List.append_assoc]

/-! ## Initialisers -/

namespace Initializer

open CLiteral (body_backslash body_of_not_isAscii body_of_not_isHexDigit body_of_isHexDigit)

/-- What stands before the next character behind this one. -/
def Before.next (before : Before) (c : Char) : Before :=
  if before = .backslash then if c = 'x' then .hexEscape else .plain
  else if c = '\\' then .backslash
  else if !isAscii c then .byteEscapes
  else if isHexDigit c && before = .hexEscape then .hexEscape
  else .plain

/-- What stands before the next character behind a text. -/
def behind (s : List Char) : Before := s.foldl Before.next .plain

variable {before : Before}

theorem next_eq_backslash : before.next c = .backslash ↔ before ≠ .backslash ∧ c = '\\' := by
  rw [Before.next]
  split_ifs <;> simp_all

theorem next_eq_hexEscape (h : before.next c = .hexEscape) :
    before = .backslash ∧ c = 'x' ∨ before = .hexEscape ∧ isHexDigit c = true := by
  rw [Before.next] at h
  split_ifs at h <;> simp_all

theorem next_eq_byteEscapes (h : before.next c = .byteEscapes) :
    before ≠ .backslash ∧ isAscii c = false := by
  rw [Before.next] at h
  split_ifs at h
  simp_all

/-- Each character adds its part to the body. -/
theorem exists_body_cons (before : Before) (c : Char) :
    ∃ part, ∀ s, body before (c :: s) = part ++ body (before.next c) s := by
  by_cases hbefore : before = .backslash
  · subst hbefore
    exact ⟨[c], fun s => rfl⟩
  by_cases hc : c = '\\'
  · subst hc
    refine ⟨['\\'], fun s => ?_⟩
    rw [next_eq_backslash.2 ⟨hbefore, rfl⟩, body_backslash hbefore]
    rfl
  cases ha : isAscii c with
  | false =>
    refine ⟨byteEscapes c, fun s => ?_⟩
    simp only [Before.next, hbefore, hc, ha, if_false, body_of_not_isAscii hbefore ha,
      Bool.not_false, if_true]
  | true =>
    cases hx : isHexDigit c with
    | false =>
      refine ⟨[c], fun s => ?_⟩
      rw [body_of_not_isHexDigit hbefore hc ha hx]
      simp [Before.next, hbefore, hc, ha, hx]
    | true =>
      cases before with
      | plain => exact ⟨[c], fun s => by simp [(body_of_isHexDigit hx s).1, Before.next, hc, ha]⟩
      | backslash => exact absurd rfl hbefore
      | hexEscape =>
        exact ⟨[c], fun s => by simp [(body_of_isHexDigit hx s).2.1, Before.next, hc, ha, hx]⟩
      | byteEscapes =>
        exact ⟨literalBreak ++ [c], fun s => by
          simp [(body_of_isHexDigit hx s).2.2, Before.next, hc, ha]⟩

theorem body_append (before : Before) (s t : List Char) :
    body before (s ++ t) = body before s ++ body (s.foldl Before.next before) t := by
  induction s generalizing before with
  | nil => rfl
  | cons c s ih =>
    obtain ⟨part, hpart⟩ := exists_body_cons before c
    rw [List.cons_append, hpart, hpart, ih, List.foldl_cons, List.append_assoc]

/-- The reader that writes the body is behind a backslash just when the reader of escape
sequences is, and behind a hexadecimal escape of the content only if it is. -/
structure Synced (before : Before) (e : Escape) : Prop where
  backslash : before = .backslash ↔ e = .begun
  hexEscape : before = .hexEscape → e = .hex

theorem Synced.next {e : Escape} (h : Synced before e) (c : Char) :
    Synced (before.next c) (e.next c) where
  backslash := by rw [next_eq_backslash, CLiteral.next_eq_begun, ne_eq, ne_eq, h.backslash]
  hexEscape hhex := by
    rcases next_eq_hexEscape hhex with ⟨hbackslash, rfl⟩ | ⟨hbefore, hc⟩
    · rw [h.backslash.1 hbackslash]
      rfl
    · rw [h.hexEscape hbefore]
      exact if_pos hc

theorem synced_behind (s : List Char) : Synced (behind s) (Escape.after s) := by
  have hfold {before : Before} {e : Escape} (h : Synced before e) :
      Synced (s.foldl Before.next before) (s.foldl Escape.next e) := by
    induction s generalizing before e with
    | nil => exact h
    | cons c s ih => exact ih (h.next c)
  exact hfold ⟨by decide, by decide⟩

/-- Only behind escapes of bytes the body may be broken. -/
theorem exists_of_behind_eq_byteEscapes (h : behind s = .byteEscapes) :
    ∃ front wide, s = front ++ [wide] ∧ IsClosed front ∧ isAscii wide = false := by
  rcases s.eq_nil_or_concat with rfl | ⟨front, wide, rfl⟩
  · cases h
  · rw [List.concat_eq_append, behind, List.foldl_append] at h
    obtain ⟨hclosed, hwide⟩ := next_eq_byteEscapes h
    exact ⟨front, wide, List.concat_eq_append .., mt (synced_behind front).backslash.2 hclosed,
      hwide⟩

/-- Where no break is needed, the body goes on as it begins. -/
theorem body_behind (h : BetweenEscapes u v) (hbreak : ¬NeedsBreak u v) :
    body (behind u) v = body .plain v := by
  have hclosed : behind u ≠ .backslash := mt (synced_behind u).backslash.1 h.isClosed
  have hplain : Before.plain ≠ .backslash := by decide
  cases v with
  | nil => rfl
  | cons c v =>
    cases hx : isHexDigit c with
    | true =>
      cases hbehind : behind u with
      | plain => rfl
      | backslash => exact absurd hbehind hclosed
      | hexEscape =>
        have habsorbs : (Escape.after u).absorbs c = false := h.not_absorbs c rfl
        rw [(synced_behind u).hexEscape hbehind] at habsorbs
        exact absurd hx (Bool.eq_false_iff.1 habsorbs)
      | byteEscapes =>
        obtain ⟨front, wide, hu, hfront, hwide⟩ := exists_of_behind_eq_byteEscapes hbehind
        exact absurd ⟨front, wide, hu, hfront, hwide, c, rfl, hx⟩ hbreak
    | false =>
      by_cases hc : c = '\\'
      · rw [hc, body_backslash hclosed, body_backslash hplain]
      · cases ha : isAscii c with
        | false => rw [body_of_not_isAscii hclosed ha, body_of_not_isAscii hplain ha]
        | true =>
          rw [body_of_not_isHexDigit hclosed hc ha hx, body_of_not_isHexDigit hplain hc ha hx]

/-- Behind a closed text a continuation is copied. -/
theorem body_continuation (h : IsClosed u) (v : List Char) :
    body (behind u) (continuation ++ v) = continuation ++ body .plain v := by
  have hclosed : behind u ≠ .backslash := mt (synced_behind u).backslash.1 h
  show body (behind u) ('\\' :: '\n' :: v) = _
  rw [body_backslash hclosed]
  rfl

theorem head?_body_ne_newline (hc : c ≠ '\n') (s : List Char) :
    (body .plain (c :: s)).head? ≠ some '\n' := by
  have hplain : Before.plain ≠ .backslash := by decide
  by_cases hbackslash : c = '\\'
  · rw [hbackslash, body_backslash hplain]
    simp
  cases ha : isAscii c with
  | false =>
    obtain ⟨t, ht⟩ := CLiteral.byteEscapes_eq_cons c
    rw [body_of_not_isAscii hplain ha, ht]
    simp
  | true =>
    cases hx : isHexDigit c with
    | true =>
      rw [(body_of_isHexDigit hx s).1]
      simpa using hc
    | false =>
      rw [body_of_not_isHexDigit hplain hbackslash ha hx]
      simpa using hc

end Initializer

/-- The initialisers with and without a continuation are the same to a compiler. -/
theorem spliced_initializer (h : BetweenEscapes u v) (hbreak : ¬NeedsBreak u v)
    (hv : v.head? ≠ some '\n') :
    spliced (initializer (u ++ (continuation ++ v))) = spliced (initializer (u ++ v)) := by
  have hinitializer (t : List Char) : initializer (u ++ t) = ('"' :: Initializer.body .plain u) ++
      (Initializer.body (Initializer.behind u) t ++ ['"']) := by
    rw [initializer, Initializer.body_append]
    simp [Initializer.behind]
  have hhead : (Initializer.body .plain v ++ ['"']).head? ≠ some '\n' := by
    cases v with
    | nil => decide
    | cons c v =>
      have hbody := Initializer.head?_body_ne_newline (c := c) (fun heq => hv (heq ▸ rfl)) v
      intro hnewline
      rw [List.head?_append] at hnewline
      cases hfirst : (Initializer.body .plain (c :: v)).head? with
      | none => rw [hfirst] at hnewline; cases hnewline
      | some d =>
        rw [hfirst] at hnewline
        exact hbody (hfirst.trans hnewline)
  rw [hinitializer, hinitializer, Initializer.body_continuation h.isClosed,
    Initializer.body_behind h hbreak, List.append_assoc, spliced_continuation hhead]

theorem NeedsBreak.of_append_left (h : NeedsBreak (s ++ u) v) (hs : IsClosed s) (hu : u ≠ []) :
    NeedsBreak u v := by
  obtain ⟨front, wide, heq, hfront, hwide, hv⟩ := h
  rcases u.eq_nil_or_concat with rfl | ⟨back, last, rfl⟩
  · exact absurd rfl hu
  · rw [List.concat_eq_append, ← List.append_assoc] at heq
    obtain ⟨rfl, hlast⟩ := List.append_inj' heq rfl
    obtain rfl := List.singleton_inj.1 hlast
    refine ⟨back, last, List.concat_eq_append .., ?_, hwide, hv⟩
    have houtside : Escape.outside ≠ .begun := by decide
    rw [IsClosed, Escape.after_append, ne_eq,
      Escape.foldl_next_eq_begun (iff_of_false hs houtside) back] at hfront
    exact hfront

/-- A continuation in one of some adjacent literals makes no difference to a compiler, at a
place between two characters that is in no escape sequence and needs no break. -/
theorem spliced_initializer_concatSegments {before : List (List Char)}
    (hbefore : ∀ segment ∈ before, IsClosed segment) (hu : u ≠ []) (hv : v ≠ [])
    (h : BetweenEscapes u v) (hbreak : ¬NeedsBreak u v) (hnewline : v.head? ≠ some '\n')
    (after : List (List Char)) :
    spliced (initializer (concatSegments (before ++ (u ++ (continuation ++ v)) :: after))) =
      spliced (initializer (concatSegments (before ++ (u ++ v) :: after))) := by
  obtain ⟨front, more, hfront, hplain, hcontinued⟩ :=
    exists_concatSegments hbefore hu hv h after
  have hplace : BetweenEscapes (front ++ u) v := h.append_left hfront hu
  have hhead : (v ++ more).head? = v.head? := by
    cases v with
    | nil => exact absurd rfl hv
    | cons c v => rfl
  rw [hplain, hcontinued]
  refine spliced_initializer ⟨hplace.isClosed, hhead ▸ hplace.not_absorbs⟩ (fun hneeds => hbreak ?_)
    (hhead ▸ hnewline)
  obtain ⟨x, wide, heq, hx, hwide, hdigit⟩ := hneeds
  have hneeds : NeedsBreak (front ++ u) v := ⟨x, wide, heq, hx, hwide, hhead ▸ hdigit⟩
  exact hneeds.of_append_left hfront.isClosed hu

/-- The same closed content, perhaps with a continuation at such a place. -/
inductive Wrapped : List Char → List Char → Prop where
  | same {s : List Char} : IsClosed s → Wrapped s s
  | continued {u v : List Char} :
    IsClosed (u ++ v) → u ≠ [] → v ≠ [] → BetweenEscapes u v → ¬NeedsBreak u v →
    v.head? ≠ some '\n' → Wrapped (u ++ v) (u ++ (continuation ++ v))

theorem Wrapped.isClosed (h : Wrapped s t) : IsClosed t := by
  cases h with
  | same hs => exact hs
  | continued hclosed hu hv hbetween =>
    rw [IsClosed, after_continuation_append hbetween.isClosed, ← hbetween.after_append hv]
    exact hclosed

/-- Continuations in adjacent literals make no difference to a compiler. -/
theorem spliced_initializer_of_wrapped {contents contents' : List (List Char)}
    (h : List.Forall₂ Wrapped contents contents') :
    spliced (initializer (concatSegments contents')) =
      spliced (initializer (concatSegments contents)) := by
  suffices hbehind : ∀ before, (∀ segment ∈ before, IsClosed segment) →
      spliced (initializer (concatSegments (before ++ contents'))) =
        spliced (initializer (concatSegments (before ++ contents))) from
    hbehind [] (List.forall_mem_nil _)
  -- The contents are exchanged one by one, the first one first.
  induction h with
  | nil => exact fun _ _ => rfl
  | @cons s t contents contents' hst _ ih =>
    intro before hbefore
    have hmore := ih (before ++ [t])
      (List.forall_mem_append.2 ⟨hbefore, List.forall_mem_singleton.2 hst.isClosed⟩)
    rw [List.append_assoc, List.append_assoc, List.singleton_append, List.singleton_append] at hmore
    rw [hmore]
    cases hst with
    | same => rfl
    | continued _ hu hv hbetween hbreak hnewline =>
      exact spliced_initializer_concatSegments hbefore hu hv hbetween hbreak hnewline contents

/-- Behind `°` the digit `C` needs a break, and a continuation hides it: the last escape
takes the digit. -/
example : spliced (initializer "°\\\nC".toList) = "\"\\xc2\\xb0C\"".toList ∧
    spliced (initializer "°C".toList) = "\"\\xc2\\xb0\" \"C\"".toList := by decide

end FlashStrings
