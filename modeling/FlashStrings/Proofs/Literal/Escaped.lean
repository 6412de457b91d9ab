import FlashStrings.Proofs.Literal.Initializer
import FlashStrings.Proofs.Text.Quoted

/-!
# Escaped characters outside of ASCII

An initialiser writes a character outside of ASCII as the escapes of its bytes, but it
copies every character that a backslash takes with it.  So the characters outside of ASCII
in an initialiser are those that stand in an escape sequence of the content
(`filter_initializer`).

A content is closed if no backslash at its end waits for a character.  Putting closed
contents together makes no new escape sequence out of a backslash and a character
(`wideEscapes_concatSegments`).
-/

namespace FlashStrings

/-- The characters outside of ASCII that stand behind a backslash which begins an escape
sequence, in a text that is read from this state. -/
def Escape.wide (e : Escape) : List Char → List Char
  | [] => []
  | c :: s =>
    if e = .begun ∧ isAscii c = false then c :: (e.next c).wide s else (e.next c).wide s

/-- The characters outside of ASCII in the escape sequences of a content. -/
def wideEscapes (content : List Char) : List Char := Escape.outside.wide content

/-- No backslash at the end of the content waits for a character. -/
def IsClosed (content : List Char) : Prop := Escape.after content ≠ .begun

instance (content : List Char) : Decidable (IsClosed content) :=
  inferInstanceAs (Decidable (Escape.after content ≠ .begun))

variable {e e' : Escape} {s t content segment : List Char}

/-! ## Escape sequences of a text -/

/-- A character behind a backslash begins no other escape sequence. -/
theorem Escape.next_begun_ne (c : Char) : Escape.begun.next c ≠ .begun := fun h =>
  (CLiteral.next_eq_begun.1 h).1 rfl

/-- Only the backslash before a character matters. -/
theorem Escape.wide_congr (h : e = .begun ↔ e' = .begun) (s : List Char) :
    e.wide s = e'.wide s := by
  induction s generalizing e e' with
  | nil => rfl
  | cons c s ih =>
    have hnext : e.next c = .begun ↔ e'.next c = .begun := by
      rw [CLiteral.next_eq_begun, CLiteral.next_eq_begun, ne_eq, ne_eq, h]
    simp only [Escape.wide, ih hnext, h]

theorem Escape.wide_append (e : Escape) (s t : List Char) :
    e.wide (s ++ t) = e.wide s ++ (s.foldl Escape.next e).wide t := by
  induction s generalizing e with
  | nil => rfl
  | cons c s ih =>
    rw [List.cons_append, Escape.wide, Escape.wide, ih, List.foldl_cons]
    split
    · rfl
    · rfl

/-- The state behind a text is behind a backslash from one such state just when it is from
the other. -/
theorem Escape.foldl_next_eq_begun (h : e = .begun ↔ e' = .begun) (s : List Char) :
    s.foldl Escape.next e = .begun ↔ s.foldl Escape.next e' = .begun := by
  induction s generalizing e e' with
  | nil => exact h
  | cons c s ih =>
    refine ih ?_
    rw [CLiteral.next_eq_begun, CLiteral.next_eq_begun, ne_eq, ne_eq, h]

/-! ## Closed contents -/

theorem isClosed_nil : IsClosed [] := by decide

theorem IsClosed.append (hs : IsClosed s) (ht : IsClosed t) : IsClosed (s ++ t) := by
  have houtside : Escape.outside ≠ .begun := by decide
  rw [IsClosed, Escape.after_append, ne_eq,
    Escape.foldl_next_eq_begun (iff_of_false hs houtside) t]
  exact ht

theorem IsClosed.wideEscapes_append (hs : IsClosed s) (t : List Char) :
    wideEscapes (s ++ t) = wideEscapes s ++ wideEscapes t := by
  have houtside : Escape.outside ≠ .begun := by decide
  rw [wideEscapes, Escape.wide_append]
  exact congrArg _ (Escape.wide_congr (iff_of_false hs houtside) t)

/-- What can stand between two double quotes is closed. -/
theorem isClosed_of_isQuotable (h : isQuotable content = true) : IsClosed content := by
  have hfold : ∀ e : Escape, e ≠ .begun → content.foldl Escape.next e ≠ .begun := by
    fun_induction isQuotable content with
    | case1 => exact fun e he => he
    | case2 => cases h
    | case3 c s ih =>
      intro e he
      rw [List.foldl_cons, List.foldl_cons, CLiteral.next_eq_begun.2 ⟨he, rfl⟩]
      exact ih h _ (Escape.next_begun_ne c)
    | case4 c s hlone hpair ih =>
      intro e he
      simp only [Bool.and_eq_true] at h
      exact ih h.2 _ fun hnext =>
        ne_backslash_of_alone hlone hpair (CLiteral.next_eq_begun.1 hnext).2
  exact hfold .outside (by decide)

/-! ## Adjacent contents -/

/-- A quotable content is quotable in both parts where it is cut in no escape sequence. -/
theorem isQuotable_of_append (h : isQuotable (s ++ t) = true) (hs : IsClosed s) :
    isQuotable s = true ∧ isQuotable t = true := by
  have houtside : Escape.outside ≠ .begun := by decide
  fun_induction isQuotable s with
  | case1 => exact ⟨rfl, h⟩
  | case2 => exact absurd rfl hs
  | case3 c s ih =>
    refine ih h fun hbegun => hs ?_
    exact (Escape.foldl_next_eq_begun (iff_of_false (Escape.next_begun_ne c) houtside) s).2 hbegun
  | case4 c s hlone hpair ih =>
    have hc := ne_backslash_of_alone hlone hpair
    rw [List.cons_append, isQuotable_cons hc] at h
    simp only [Bool.and_eq_true] at h ⊢
    obtain ⟨hplain, h⟩ := h
    have hnext : Escape.outside.next c ≠ .begun := by
      rw [ne_eq, CLiteral.next_eq_begun]
      exact fun hboth => hc hboth.2
    obtain ⟨hs, ht⟩ := ih h fun hbegun =>
      hs ((Escape.foldl_next_eq_begun (iff_of_false hnext houtside) s).2 hbegun)
    exact ⟨⟨hplain, hs⟩, ht⟩

theorem isClosed_literalBreak : IsClosed literalBreak := by decide

theorem IsClosed.appendSegment (h : IsClosed content) (h' : IsClosed segment) :
    IsClosed (appendSegment content segment) ∧
      wideEscapes (appendSegment content segment) =
        wideEscapes content ++ wideEscapes segment := by
  cases segment with
  | nil => exact ⟨h, (List.append_nil _).symm⟩
  | cons c segment =>
    rw [FlashStrings.appendSegment]
    split
    · have hbreak : wideEscapes literalBreak = [] := by decide
      have hfront := h.append isClosed_literalBreak
      exact ⟨hfront.append h', by
        rw [hfront.wideEscapes_append, h.wideEscapes_append, hbreak, List.append_nil]⟩
    · exact ⟨h.append h', h.wideEscapes_append _⟩

/-- Adjacent contents have the escape sequences of each. -/
theorem wideEscapes_concatSegments {segments : List (List Char)}
    (h : ∀ segment ∈ segments, IsClosed segment) :
    wideEscapes (concatSegments segments) = segments.flatMap wideEscapes := by
  have hfold : ∀ content, IsClosed content →
      wideEscapes (segments.foldl appendSegment content) =
        wideEscapes content ++ segments.flatMap wideEscapes := by
    induction segments with
    | nil => exact fun content _ => (List.append_nil _).symm
    | cons segment segments ih =>
      intro content hcontent
      obtain ⟨hsegment, hsegments⟩ := List.forall_mem_cons.1 h
      obtain ⟨hclosed, hwide⟩ := hcontent.appendSegment hsegment
      rw [List.foldl_cons, ih hsegments _ hclosed, hwide, List.flatMap_cons, List.append_assoc]
  exact hfold [] isClosed_nil

/-! ## Initialisers -/

namespace CLiteral

open Initializer (Before body)

theorem isAscii_of_mem_byteEscapes {c d : Char} (h : d ∈ byteEscapes c) : isAscii d = true := by
  obtain ⟨b, -, hd⟩ := List.mem_flatMap.1 h
  have hb := b.toNat_lt
  simp only [hexByte, List.mem_cons, List.not_mem_nil, or_false] at hd
  rcases hd with rfl | rfl | rfl | rfl
  · rfl
  · rfl
  · exact isAscii_of_isHexDigit (isHexDigit_hexDigit (by omega))
  · exact isAscii_of_isHexDigit (isHexDigit_hexDigit (Nat.mod_lt _ (by decide)))

theorem filter_of_isAscii (h : ∀ c ∈ s, isAscii c = true) : s.filter (!isAscii ·) = [] :=
  List.filter_eq_nil_iff.2 fun c hc => by simp [h c hc]

/-- The body of an initialiser copies what a backslash takes, and has no other character
outside of ASCII. -/
theorem filter_body {before : Before} (h : before = .backslash ↔ e = .begun) (s : List Char) :
    (body before s).filter (!isAscii ·) = e.wide s := by
  induction s generalizing before e with
  | nil => rfl
  | cons c s ih =>
    by_cases hbefore : before = .backslash
    · obtain rfl := h.1 hbefore
      subst hbefore
      have hnext : (if c = 'x' then Before.hexEscape else .plain) = .backslash ↔
          Escape.begun.next c = .begun :=
        iff_of_false (by split <;> decide) (Escape.next_begun_ne c)
      rw [body, List.filter_cons, ih hnext, Escape.wide]
      cases hc : isAscii c with
      | true => simp
      | false => simp
    have he : e ≠ .begun := mt h.2 hbefore
    rw [Escape.wide, if_neg fun hwide => he hwide.1]
    by_cases hc : c = '\\'
    · subst hc
      have hbegun : Before.backslash = .backslash ↔ e.next '\\' = .begun :=
        iff_of_true rfl (next_eq_begun.2 ⟨he, rfl⟩)
      rw [body_backslash hbefore, List.filter_cons, ih hbegun]
      rfl
    have hnext : e.next c ≠ .begun := fun hn => hc (next_eq_begun.1 hn).2
    have hplain : Before.plain = .backslash ↔ e.next c = .begun := iff_of_false (by decide) hnext
    cases ha : isAscii c with
    | false =>
      have hbytes : Before.byteEscapes = .backslash ↔ e.next c = .begun :=
        iff_of_false (by decide) hnext
      rw [body_of_not_isAscii hbefore ha, List.filter_append,
        filter_of_isAscii fun d hd => isAscii_of_mem_byteEscapes hd, ih hbytes, List.nil_append]
    | true =>
      by_cases hx : isHexDigit c = true
      · obtain ⟨hplainBody, hhexBody, hbyteBody⟩ := body_of_isHexDigit hx s
        cases before with
        | plain => rw [hplainBody, List.filter_cons, ih hplain, ha]; rfl
        | backslash => exact absurd rfl hbefore
        | hexEscape =>
          have hhex : Before.hexEscape = .backslash ↔ e.next c = .begun :=
            iff_of_false (by decide) hnext
          rw [hhexBody, List.filter_cons, ih hhex, ha]; rfl
        | byteEscapes =>
          have hbreak : literalBreak.filter (!isAscii ·) = [] := by decide
          rw [hbyteBody, List.filter_append, hbreak, List.filter_cons, ih hplain, ha]; rfl
      · rw [body_of_not_isHexDigit hbefore hc ha (by simpa using hx), List.filter_cons, ih hplain,
          ha]
        rfl

/-- The characters outside of ASCII in an initialiser are those that a backslash of the
content takes with it. -/
theorem filter_initializer (content : List Char) :
    (initializer content).filter (!isAscii ·) = wideEscapes content := by
  have hplain : Before.plain = .backslash ↔ Escape.outside = .begun := by decide
  have hquote : ['"'].filter (!isAscii ·) = [] := by decide
  rw [initializer, List.cons_append, List.filter_cons, List.filter_append, filter_body hplain,
    hquote, List.append_nil]
  rfl

end CLiteral

example : wideEscapes "ä\\\\ö\\ü".toList = ['ü'] := by decide

end FlashStrings
