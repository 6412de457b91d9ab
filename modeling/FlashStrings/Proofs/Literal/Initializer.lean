import FlashStrings.Literal.Initializer
import FlashStrings.Proofs.Literal.Concat

/-!
# The value of an initialiser

The initialiser of a content has the value of the content between double quotes,
whatever the content is (`value?_initializer`).

Both texts are read side by side.  The two readers are in one state, except
behind the escapes of a character outside of ASCII: there the one of the
initialiser has not given the last byte yet, since the escape of that byte might
still get a digit.  `Behind` is the relation between the two.
-/

namespace FlashStrings

namespace CLiteral

open Initializer (Before body)

/-! ## Backslashes -/

theorem eq_begun_iff {state : State} : state = .begun ↔ state.escape = .begun := by
  cases state <;> simp [State.escape]

theorem next_eq_begun {e : Escape} {c : Char} :
    e.next c = .begun ↔ e ≠ .begun ∧ c = '\\' := by
  constructor
  · intro h
    cases e with
    | outside => simpa [Escape.next] using h
    | begun =>
      simp only [Escape.next] at h
      split_ifs at h
    | hex =>
      simp only [Escape.next] at h
      split_ifs at h with _ hc
      exact ⟨by simp, hc⟩
    | octal more =>
      cases more with
      | true =>
        simp only [Escape.next] at h
        split_ifs at h with _ hc
        exact ⟨by simp, hc⟩
      | false =>
        simp only [Escape.next] at h
        split_ifs at h with _ hc
        exact ⟨by simp, hc⟩
  · rintro ⟨he, rfl⟩
    cases e with
    | outside => rfl
    | begun => exact absurd rfl he
    | hex => rfl
    | octal more => cases more <;> rfl

/-- A state is behind a backslash if it read one outside of an escape. -/
theorem begun_of_step {state : State} {c : Char} {r : State × Bytes}
    (h : step state c = some r) : r.1 = .begun ↔ state ≠ .begun ∧ c = '\\' := by
  rw [eq_begun_iff, escape_of_step h, next_eq_begun, ne_eq, ne_eq, eq_begun_iff]

/-! ## Byte escapes -/

theorem isHexDigit_hexDigit {n : Nat} (h : n < 16) : isHexDigit (hexDigit n) = true := by
  revert h n
  decide

theorem digitValue_hexDigit {n : Nat} (h : n < 16) : digitValue (hexDigit n) = n := by
  revert h n
  decide

/-- The two digits of a byte are read back as the byte. -/
theorem run_hexByte (b : UInt8) (s : List Char) :
    run .hexFirst (hexByte b ++ s) = run (.hex b.toNat) s := by
  have hb := b.toNat_lt
  have high : b.toNat / 16 < 16 := by omega
  have low : b.toNat % 16 < 16 := Nat.mod_lt _ (by decide)
  have hsum : 16 * (b.toNat / 16) + b.toNat % 16 = b.toNat := Nat.div_add_mod _ _
  simp only [hexByte, List.cons_append, List.nil_append, run_cons, step, isHexDigit_hexDigit high,
    isHexDigit_hexDigit low, digitValue_hexDigit high, digitValue_hexDigit low, hsum, if_true,
    Option.bind_some, map_emit_nil]

theorem run_byteEscape {state : State} (h : state.Closable) (b : UInt8) (s : List Char) :
    run state ('\\' :: 'x' :: hexByte b ++ s) =
      (run (.hex b.toNat) s).map (emit state.pending) := by
  show run state ('\\' :: 'x' :: (hexByte b ++ s)) = _
  rw [run_cons, step_backslash h, Option.bind_some]
  show ((run .hexFirst (hexByte b ++ s)).map (emit [])).map _ = _
  rw [map_emit_nil, run_hexByte]

/-- Behind the escapes of some bytes, all of them but the last are given. -/
theorem run_byteEscapes_concat {state : State} (h : state.Closable) (bs : Bytes) (b : UInt8)
    (s : List Char) :
    run state (((bs ++ [b]).flatMap fun b => '\\' :: 'x' :: hexByte b) ++ s) =
      (run (.hex b.toNat) s).map (emit (state.pending ++ bs)) := by
  induction bs generalizing state with
  | nil =>
    rw [List.nil_append, List.flatMap_singleton, List.append_nil]
    exact run_byteEscape h b s
  | cons b' bs ih =>
    rw [List.cons_append, List.flatMap_cons, List.append_assoc, run_byteEscape h]
    have hnext : (State.hex b'.toNat).Closable := trivial
    rw [ih hnext, map_emit_emit]
    simp [State.pending]

theorem byteEscapes_eq_cons (c : Char) : ∃ s, byteEscapes c = '\\' :: s := by
  unfold byteEscapes
  cases h : String.utf8EncodeChar c with
  | nil => exact absurd h String.utf8EncodeChar_ne_nil
  | cons b bs => exact ⟨_, rfl⟩

/-! ## Characters outside of ASCII -/

theorem isAscii_of_isHexDigit {c : Char} (h : isHexDigit c = true) : isAscii c = true := by
  simp only [isHexDigit, Char.isDigit, Bool.or_eq_true, Bool.and_eq_true, decide_eq_true_eq] at h
  simp only [isAscii, decide_eq_true_eq]
  have e : c.toNat = c.val.toNat := rfl
  rcases h with (⟨-, h⟩ | ⟨-, h⟩) | ⟨-, h⟩
  · have := UInt32.le_iff_toNat_le.1 h
    simp at this
    omega
  · have := UInt32.le_iff_toNat_le.1 (Char.le_def.1 h)
    simp at this
    omega
  · have := UInt32.le_iff_toNat_le.1 (Char.le_def.1 h)
    simp at this
    omega

theorem isAscii_of_isOctDigit {c : Char} (h : isOctDigit c = true) : isAscii c = true := by
  simp only [isOctDigit, Bool.and_eq_true, decide_eq_true_eq] at h
  simp only [isAscii, decide_eq_true_eq]
  have e : c.toNat = c.val.toNat := rfl
  have := UInt32.le_iff_toNat_le.1 (Char.le_def.1 h.2)
  simp at this
  omega

variable {c : Char}

theorem absorbs_eq_false (h : isAscii c = false) (e : Escape) : e.absorbs c = false := by
  cases e with
  | outside => rfl
  | begun => rfl
  | hex => exact eq_false_of_ne_true fun hd => by simp [isAscii_of_isHexDigit hd] at h
  | octal more =>
    exact eq_false_of_ne_true fun hd => by simp [isAscii_of_isOctDigit hd] at h

theorem ne_of_not_isAscii (h : isAscii c = false) {d : Char} (hd : isAscii d = true) : c ≠ d := by
  rintro rfl
  simp [h] at hd

theorem readPlain_of_not_isAscii (h : isAscii c = false) :
    readPlain c = some (.inside, String.utf8EncodeChar c) := by
  rw [readPlain, if_neg (ne_of_not_isAscii h rfl), if_neg (ne_of_not_isAscii h rfl),
    if_neg (ne_of_not_isAscii h rfl)]

theorem isSpace_of_not_isAscii (h : isAscii c = false) : isSpace c = false := by
  have ne (d : Char) (hd : isAscii d = true) : (c == d) = false :=
    beq_eq_false_iff_ne.2 (ne_of_not_isAscii h hd)
  simp [isSpace, ne _ (show isAscii ' ' = true from rfl), ne _ (show isAscii '\t' = true from rfl),
    ne _ (show isAscii '\n' = true from rfl), ne _ (show isAscii '\x0b' = true from rfl),
    ne _ (show isAscii '\x0c' = true from rfl), ne _ (show isAscii '\r' = true from rfl)]

/-- Where no literal can be closed, neither a character outside of ASCII nor a
backslash can stand, unless a backslash stands before it. -/
theorem step_of_not_closable {state : State} (h : isAscii c = false) (hs : ¬state.Closable)
    (hb : state ≠ .begun) : step state c = none ∧ step state '\\' = none := by
  have hhex : isHexDigit c = false := absorbs_eq_false h .hex
  cases state with
  | between =>
    refine ⟨?_, rfl⟩
    rw [step, if_neg (ne_of_not_isAscii h rfl), isSpace_of_not_isAscii h]
    rfl
  | inside => exact absurd trivial hs
  | begun => exact absurd rfl hb
  | hexFirst => exact ⟨by simp [step, hhex], rfl⟩
  | hex => exact absurd trivial hs
  | octal => exact absurd trivial hs
  | universal => exact ⟨by simp [step, hhex], rfl⟩

/-! ## The body of an initialiser -/

theorem body_backslash {before : Before} (hb : before ≠ .backslash) (s : List Char) :
    body before ('\\' :: s) = '\\' :: body .backslash s := by
  cases before with
  | plain => rfl
  | backslash => exact absurd rfl hb
  | hexEscape => rfl
  | byteEscapes => rfl

theorem body_of_not_isAscii {before : Before} (hb : before ≠ .backslash)
    (h : isAscii c = false) (s : List Char) :
    body before (c :: s) = byteEscapes c ++ body .byteEscapes s := by
  have hc : c ≠ '\\' := ne_of_not_isAscii h rfl
  cases before with
  | plain => simp [body, hc, h]
  | backslash => exact absurd rfl hb
  | hexEscape => simp [body, hc, h]
  | byteEscapes => simp [body, hc, h]

theorem body_of_not_isHexDigit {before : Before} (hb : before ≠ .backslash) (hc : c ≠ '\\')
    (h : isAscii c = true) (hx : isHexDigit c = false) (s : List Char) :
    body before (c :: s) = c :: body .plain s := by
  cases before with
  | plain => simp [body, hc, h]
  | backslash => exact absurd rfl hb
  | hexEscape => simp [body, hc, h, hx]
  | byteEscapes => simp [body, hc, h, hx]

theorem body_of_isHexDigit (hx : isHexDigit c = true) (s : List Char) :
    body .plain (c :: s) = c :: body .plain s ∧
      body .hexEscape (c :: s) = c :: body .hexEscape s ∧
      body .byteEscapes (c :: s) = literalBreak ++ c :: body .plain s := by
  have hc := ne_backslash_of_isHexDigit hx
  have ha := isAscii_of_isHexDigit hx
  exact ⟨by simp [body, hc, ha, hx], by simp [body, hc, ha, hx], by simp [body, hc, ha, hx]⟩

/-! ## The two readers -/

/-- What stands before the next character, the states of the readers of the
content and of the initialiser, and the bytes that only the first has given. -/
inductive Behind : Before → State → State → Bytes → Prop where
  | plain {state : State} : state ≠ .begun → Behind .plain state state []
  | hexEscape {state : State} : state ≠ .begun → Behind .hexEscape state state []
  | backslash : Behind .backslash .begun .begun []
  | byteEscapes (b : UInt8) : Behind .byteEscapes .inside (.hex b.toNat) [b]

/-- Reading a character that stands in both texts. -/
theorem run_cons_congr {state : State} {s t : List Char}
    (h : ∀ r, step state c = some r → run r.1 s = run r.1 t) :
    run state (c :: s) = run state (c :: t) := by
  rw [run_cons, run_cons]
  cases hr : step state c with
  | none => rfl
  | some r => rw [Option.bind_some, Option.bind_some, h r hr]

/-- The escapes of a character outside of ASCII against the character. -/
theorem run_byteEscapes {state : State} {s t : List Char} (h : isAscii c = false)
    (hb : state ≠ .begun)
    (ih : ∀ b : UInt8, run (.hex b.toNat) s = (run .inside t).map (emit [b])) :
    run state (byteEscapes c ++ s) = run state (c :: t) := by
  by_cases hs : state.Closable
  · obtain ⟨bs, b, hbs⟩ : ∃ bs b, String.utf8EncodeChar c = bs ++ [b] :=
      ⟨_, _, (List.dropLast_append_getLast String.utf8EncodeChar_ne_nil).symm⟩
    rw [byteEscapes, hbs, run_byteEscapes_concat hs, ih, map_emit_emit, run_cons,
      step_of_not_absorbs hs (absorbs_eq_false h _), readPlain_of_not_isAscii h, hbs,
      List.append_assoc]
    rfl
  · obtain ⟨hc, hbackslash⟩ := step_of_not_closable h hs hb
    obtain ⟨u, hu⟩ := byteEscapes_eq_cons c
    rw [hu, List.cons_append, run_cons, run_cons, hc, hbackslash]
    rfl

theorem Behind.ne_begun {before : Before} {state state' : State} {owed : Bytes}
    (h : Behind before state state' owed) (hb : before ≠ .backslash) : state ≠ .begun := by
  cases h with
  | plain hs => exact hs
  | hexEscape hs => exact hs
  | backslash => exact absurd rfl hb
  | byteEscapes => simp

/-- A character that is no digit makes the reader of the initialiser catch up. -/
theorem Behind.run_cons {before : Before} {state state' : State} {owed : Bytes}
    (h : Behind before state state' owed) (hc : isHexDigit c = false) (s : List Char) :
    run state' (c :: s) = (run state (c :: s)).map (emit owed) := by
  cases h with
  | plain => exact (map_emit_nil _).symm
  | hexEscape => exact (map_emit_nil _).symm
  | backslash => exact (map_emit_nil _).symm
  | byteEscapes b =>
    have hs : (State.hex b.toNat).Closable := trivial
    simpa [State.pending] using run_of_not_absorbs hs (s := s) hc

theorem Behind.of_step {state : State} {r : State × Bytes} (hs : state ≠ .begun)
    (h : step state c = some r) :
    (c = '\\' → Behind .backslash r.1 r.1 []) ∧
      (c ≠ '\\' → Behind .plain r.1 r.1 [] ∧ Behind .hexEscape r.1 r.1 []) := by
  constructor
  · intro hc
    rw [(begun_of_step h).2 ⟨hs, hc⟩]
    exact .backslash
  · intro hc
    have hr : r.1 ≠ .begun := fun hr => hc ((begun_of_step h).1 hr).2
    exact ⟨.plain hr, .hexEscape hr⟩

/-- The readers of a content and of its initialiser stay together. -/
theorem run_body {before : Before} {state state' : State} {owed : Bytes}
    (h : Behind before state state' owed) (s t : List Char) :
    run state' (body before s ++ '"' :: t) = (run state (s ++ '"' :: t)).map (emit owed) := by
  induction s generalizing before state state' owed with
  | nil =>
    show run state' ('"' :: t) = _
    exact h.run_cons rfl t
  | cons c s ih =>
    -- A character that stands in both texts takes both readers to one state, and
    -- the induction goes on from there.
    have copy : ∀ {next : Before} {state : State},
        (∀ r, step state c = some r → Behind next r.1 r.1 []) →
        run state (c :: (body next s ++ '"' :: t)) = run state (c :: (s ++ '"' :: t)) := by
      intro next state hnext
      exact run_cons_congr fun r hr => by rw [ih (hnext r hr), map_emit_nil]
    by_cases hbefore : before = .backslash
    · subst hbefore
      cases h
      rw [map_emit_nil]
      refine copy fun r hr => ?_
      have hr : r.1 ≠ .begun := fun hb => ((begun_of_step hr).1 hb).1 rfl
      split
      · exact .hexEscape hr
      · exact .plain hr
    have hs := h.ne_begun hbefore
    by_cases hc : c = '\\'
    · subst hc
      rw [body_backslash hbefore, List.cons_append, h.run_cons rfl,
        copy fun r hr => (Behind.of_step hs hr).1 rfl]
      rfl
    by_cases ha : isAscii c = false
    · obtain ⟨u, hu⟩ := byteEscapes_eq_cons c
      -- The escapes begin with a backslash, which ends what is pending first.
      have hcatch := h.run_cons (c := '\\') rfl (u ++ (body .byteEscapes s ++ '"' :: t))
      rw [body_of_not_isAscii hbefore ha, List.append_assoc, hu, List.cons_append, hcatch,
        ← List.cons_append, ← hu, run_byteEscapes ha hs fun b => ih (.byteEscapes b)]
      rfl
    have plain : ∀ state, state ≠ .begun →
        run state (c :: (body .plain s ++ '"' :: t)) = run state (c :: (s ++ '"' :: t)) :=
      fun state hs => copy fun r hr => ((Behind.of_step hs hr).2 hc).1
    by_cases hx : isHexDigit c = true
    · obtain ⟨hplain, hhex, hbyte⟩ := body_of_isHexDigit hx s
      cases h with
      | plain hs =>
        rw [hplain, map_emit_nil]
        exact plain _ hs
      | hexEscape hs =>
        rw [hhex, map_emit_nil]
        exact copy fun r hr => ((Behind.of_step hs hr).2 hc).2
      | backslash => exact absurd rfl hbefore
      | byteEscapes b =>
        -- Here the digit would be taken, so the literal is broken before it.
        have hclose : (State.hex b.toNat).Closable := trivial
        rw [hbyte, List.append_assoc, run_literalBreak hclose, List.cons_append, plain _ hs]
        simp [State.pending]
    · rw [body_of_not_isHexDigit hbefore hc (by simpa using ha) (by simpa using hx),
        List.cons_append, h.run_cons (by simpa using hx), plain _ hs]
      rfl

/-- An initialiser has the value of its content between double quotes. -/
theorem value?_initializer (content : List Char) :
    value? (initializer content) = value? (quoted content) := by
  have hinside : State.inside ≠ .begun := by simp
  have h := run_body (.plain hinside) content []
  rw [map_emit_nil] at h
  have hrun : run .between (initializer content) = run .between (quoted content) := by
    show (run .inside (body .plain content ++ ['"'])).map (emit []) =
      (run .inside (content ++ ['"'])).map (emit [])
    rw [h]
  rw [value?, value?, hrun]

end CLiteral

end FlashStrings
