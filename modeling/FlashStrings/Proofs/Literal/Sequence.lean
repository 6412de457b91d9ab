import FlashStrings.Proofs.Literal.Initializer
import FlashStrings.Proofs.Text.Quoted

/-!
# Sequences of literals

A text is a sequence of literals if every double quote that opens one is closed in its
line, a backslash takes the next character with it, and only white space stands between
the literals (`IsLiterals`).

An initialiser is one just when its content between double quotes is one
(`isLiterals_initializer`), and putting contents together keeps this
(`fits_concatSegments`).
-/

namespace FlashStrings

namespace CLiteral

open Initializer (Before body)

/-- Where a reader of adjacent literals stands. -/
inductive Place where
  /-- Outside of a literal. -/
  | between
  /-- In a literal. -/
  | inside
  /-- In a literal, behind a backslash. -/
  | escaped
  deriving DecidableEq, Repr

namespace Place

/-- The place behind one more character; none if the character cannot stand there. -/
def next? (p : Place) (c : Char) : Option Place :=
  match p with
  | .between => if c = '"' then some .inside else if isSpace c then some .between else none
  | .inside =>
    if c = '"' then some .between else if c = '\\' then some .escaped
    else if c = '\n' then none else some .inside
  | .escaped => some .inside

/-- The place behind a text. -/
def after? (p : Place) (s : List Char) : Option Place := s.foldlM next? p

end Place

/-- The text is a sequence of closed literals, with white space in between. -/
def IsLiterals (s : List Char) : Prop := Place.between.after? s = some .between

instance (s : List Char) : Decidable (IsLiterals s) :=
  inferInstanceAs (Decidable (_ = _))

/-- The content leads from the inside of a literal to the inside of one. -/
def Fits (content : List Char) : Prop := Place.inside.after? content = some .inside

variable {p : Place} {c : Char} {s t content segment : List Char}

/-! ## Places -/

namespace Place

theorem after?_cons (p : Place) (c : Char) (s : List Char) :
    p.after? (c :: s) = (p.next? c).bind (·.after? s) := List.foldlM_cons

theorem after?_append (p : Place) (s t : List Char) :
    p.after? (s ++ t) = (p.after? s).bind (·.after? t) := List.foldlM_append

theorem next?_inside (hquote : c ≠ '"') (hbackslash : c ≠ '\\') (hnewline : c ≠ '\n') :
    inside.next? c = some inside := by
  rw [next?, if_neg hquote, if_neg hbackslash, if_neg hnewline]

end Place

open Place

/-! ## Contents -/

theorem isLiterals_quoted_iff : IsLiterals (quoted content) ↔ Fits content := by
  have hquoted : Place.between.after? (quoted content) =
      (Place.inside.after? content).bind fun p => (p.next? '"').bind fun p => some p := by
    rw [quoted, List.cons_append, after?_cons]
    exact after?_append .inside content ['"']
  rw [IsLiterals, hquoted, Fits]
  cases Place.inside.after? content with
  | none => exact iff_of_false nofun nofun
  | some p => cases p <;> decide

theorem fits_nil : Fits [] := rfl

theorem fits_literalBreak : Fits literalBreak := rfl

theorem Fits.append (hs : Fits s) (ht : Fits t) : Fits (s ++ t) := by
  rw [Fits, after?_append, hs]
  exact ht

theorem fits_of_isQuotable (h : isQuotable content = true) : Fits content := by
  fun_induction isQuotable content with
  | case1 => rfl
  | case2 => cases h
  | case3 c s ih => exact ih h
  | case4 c s hlone hpair ih =>
    simp only [Bool.and_eq_true, bne_iff_ne] at h
    obtain ⟨⟨hquote, hnewline⟩, h⟩ := h
    rw [Fits, after?_cons, next?_inside hquote (ne_backslash_of_alone hlone hpair) hnewline]
    exact ih h

theorem Fits.appendSegment (h : Fits content) (h' : Fits segment) :
    Fits (appendSegment content segment) := by
  cases segment with
  | nil => exact h
  | cons c segment =>
    rw [FlashStrings.appendSegment]
    split
    · exact (h.append fits_literalBreak).append h'
    · exact h.append h'

theorem fits_concatSegments {segments : List (List Char)}
    (h : ∀ segment ∈ segments, Fits segment) : Fits (concatSegments segments) := by
  have hfold : ∀ content, Fits content →
      Fits (segments.foldl FlashStrings.appendSegment content) := by
    induction segments with
    | nil => exact fun content hcontent => hcontent
    | cons segment segments ih =>
      intro content hcontent
      obtain ⟨hsegment, hsegments⟩ := List.forall_mem_cons.1 h
      exact ih hsegments _ (hcontent.appendSegment hsegment)
  exact hfold [] fits_nil

/-! ## Initialisers -/

theorem fits_hexByte (b : UInt8) : Fits (hexByte b) := by
  have hdigit : ∀ n < 16, Place.inside.next? (hexDigit n) = some .inside := by decide
  have hb := b.toNat_lt
  rw [Fits, hexByte, after?_cons, hdigit _ (by omega)]
  show Place.inside.after? [_] = _
  rw [after?_cons, hdigit _ (Nat.mod_lt _ (by decide))]
  rfl

theorem fits_byteEscapes (c : Char) : Fits (byteEscapes c) := by
  have hbytes : ∀ bs : Bytes, Fits (bs.flatMap fun b => '\\' :: 'x' :: hexByte b) := by
    intro bs
    induction bs with
    | nil => rfl
    | cons b bs ih => exact Fits.append (fits_hexByte b) ih
  exact hbytes _

/-- What stands before the next character of a content, and the place that the character
has in both texts. -/
structure Meets (before : Before) (p : Place) : Prop where
  backslash_iff : before = .backslash ↔ p = .escaped
  inside_of_byteEscapes : before = .byteEscapes → p = .inside

theorem meets_plain (hp : p ≠ .escaped) : Meets .plain p :=
  ⟨iff_of_false (by decide) hp, nofun⟩

/-- Outside of a backslash's reach, only a backslash leads behind one. -/
theorem ne_escaped_of_next? {p' : Place} (hp : p ≠ .escaped) (hc : c ≠ '\\')
    (h : p.next? c = some p') : p' ≠ .escaped := by
  rintro rfl
  cases p with
  | between =>
    rw [next?] at h
    split_ifs at h
    · cases h
    · cases h
  | inside =>
    rw [next?, if_neg hc] at h
    split_ifs at h
    · cases h
    · cases h
  | escaped => exact hp rfl

/-- A character that stands in both texts. -/
theorem after?_cons_congr
    (h : ∀ p', p.next? c = some p' → p'.after? s = p'.after? t) :
    p.after? (c :: s) = p.after? (c :: t) := by
  rw [after?_cons, after?_cons]
  cases hp : p.next? c with
  | none => rfl
  | some p' => exact h p' hp

/-- The body of an initialiser leads to the place to which the content leads. -/
theorem after?_body {before : Before} (h : Meets before p) (s : List Char) :
    p.after? (body before s) = p.after? s := by
  induction s generalizing before p with
  | nil => rfl
  | cons c s ih =>
    by_cases hbefore : before = .backslash
    · obtain rfl := h.backslash_iff.1 hbefore
      subst hbefore
      refine after?_cons_congr fun p' hp' => ih ?_
      obtain rfl := Option.some.inj hp'
      split
      · exact ⟨by decide, nofun⟩
      · exact ⟨by decide, nofun⟩
    have hp : p ≠ .escaped := mt h.backslash_iff.2 hbefore
    by_cases hc : c = '\\'
    · subst hc
      rw [body_backslash hbefore]
      refine after?_cons_congr fun p' hp' => ih ?_
      cases p with
      | between => cases hp'
      | inside =>
        obtain rfl := Option.some.inj hp'
        exact ⟨by decide, nofun⟩
      | escaped => exact absurd rfl hp
    have plain : ∀ p : Place, p ≠ .escaped →
        p.after? (c :: body .plain s) = p.after? (c :: s) := fun p hp =>
      after?_cons_congr fun p' hp' => ih (meets_plain (ne_escaped_of_next? hp hc hp'))
    cases ha : isAscii c with
    | false =>
      rw [body_of_not_isAscii hbefore ha]
      cases p with
      | between =>
        -- Neither the character nor the backslash of its escapes can stand between literals.
        obtain ⟨u, hu⟩ := byteEscapes_eq_cons c
        rw [hu, List.cons_append, after?_cons, after?_cons, next?, next?,
          if_neg (ne_of_not_isAscii ha rfl), isSpace_of_not_isAscii ha]
        rfl
      | inside =>
        rw [after?_append, fits_byteEscapes c, after?_cons,
          next?_inside (ne_of_not_isAscii ha rfl) hc (ne_of_not_isAscii ha rfl)]
        exact ih ⟨by decide, fun _ => rfl⟩
      | escaped => exact absurd rfl hp
    | true =>
      by_cases hx : isHexDigit c = true
      · obtain ⟨hplain, hhex, hbyte⟩ := body_of_isHexDigit hx s
        cases before with
        | plain => rw [hplain, plain p hp]
        | backslash => exact absurd rfl hbefore
        | hexEscape =>
          rw [hhex]
          exact after?_cons_congr fun p' hp' =>
            ih ⟨iff_of_false (by decide) (ne_escaped_of_next? hp hc hp'), nofun⟩
        | byteEscapes =>
          obtain rfl := h.inside_of_byteEscapes rfl
          rw [hbyte, after?_append, fits_literalBreak]
          exact plain .inside hp
      · rw [body_of_not_isHexDigit hbefore hc ha (by simpa using hx), plain p hp]

/-- An initialiser is a sequence of literals just when its content between double quotes is
one. -/
theorem isLiterals_initializer :
    IsLiterals (initializer content) ↔ IsLiterals (quoted content) := by
  have hbody : Place.inside.after? (body .plain content) = Place.inside.after? content :=
    after?_body (meets_plain (by decide)) content
  rw [show initializer content = quoted (body .plain content) from rfl, isLiterals_quoted_iff,
    isLiterals_quoted_iff, Fits, Fits, hbody]

/-! ## Values -/

/-- A content has a value between double quotes just when it holds some bytes. -/
theorem exists_holds_iff : (∃ bytes, Holds content bytes) ↔ (value? (quoted content)).isSome := by
  constructor
  · rintro ⟨bytes, h⟩
    rw [value?_quoted h]
    rfl
  · intro h
    have hrun : run .between (quoted content) =
        (run .inside content).bind fun r => (run r.1 ['"']).map (emit r.2) := by
      show (run .inside (content ++ ['"'])).map (emit []) = _
      rw [map_emit_nil, run_append]
    rw [value?, hrun] at h
    cases hcontent : run .inside content with
    | none => rw [hcontent] at h; cases h
    | some r =>
      refine ⟨_, r.1, r.2, hcontent, ?_, rfl⟩
      rw [hcontent] at h
      -- From the other states, the quote does not close a literal.
      obtain ⟨state, out⟩ := r
      cases state with
      | between => cases h
      | inside => trivial
      | begun => cases h
      | hexFirst => cases h
      | hex => trivial
      | octal => trivial
      | universal => cases h

/-- Adjacent literals with a value have one together. -/
theorem isSome_value?_concatSegments {segments : List (List Char)}
    (h : ∀ segment ∈ segments, (value? (quoted segment)).isSome) :
    (value? (initializer (concatSegments segments))).isSome := by
  have hvalues : ∃ values, List.Forall₂ Holds segments values := by
    induction segments with
    | nil => exact ⟨[], .nil⟩
    | cons segment segments ih =>
      obtain ⟨hsegment, hsegments⟩ := List.forall_mem_cons.1 h
      obtain ⟨bytes, hbytes⟩ := exists_holds_iff.2 hsegment
      obtain ⟨values, hvalues⟩ := ih hsegments
      exact ⟨bytes :: values, .cons hbytes hvalues⟩
  obtain ⟨values, hvalues⟩ := hvalues
  rw [value?_initializer, value?_quoted (holds_concatSegments hvalues)]
  rfl

example : IsLiterals "\"a\\\"b\" \"\"".toList ∧ ¬IsLiterals "\"a\"b\"".toList := by decide

end CLiteral

end FlashStrings
