import Mathlib.Data.List.Forall2
import FlashStrings.Literal.Concat
import FlashStrings.Proofs.Literal.CValue

/-!
# The value of adjacent literals

`concatSegments` puts the contents of adjacent literals together, and the bytes
of the literals stay behind each other (`holds_concatSegments`).

The reader of the escape sequences in a content sees less than a reader of C
literals does.  `State.escape` forgets the difference, and `after_eq_of_run` says
that the two then move together.  So a content that does not absorb a character
is one whose last escape that character ends, and the literal break of the other
contents ends it as well.
-/

namespace FlashStrings

namespace CLiteral

/-- The escape sequence that a state is in. -/
def State.escape : State → Escape
  | .between | .inside | .universal _ _ => .outside
  | .begun => .begun
  | .hexFirst | .hex _ => .hex
  | .octal more _ => .octal more

/-- A double quote ends the literal in this state. -/
def State.Closable : State → Prop
  | .inside | .hex _ | .octal _ _ => True
  | _ => False

/-- The content between two double quotes has these bytes. -/
def Holds (content : List Char) (bytes : Bytes) : Prop :=
  ∃ state out, run .inside content = some (state, out) ∧ state.Closable ∧
    out ++ state.pending = bytes

/-! ## One step -/

theorem escape_of_readPlain {c : Char} {r : State × Bytes} (h : readPlain c = some r) :
    r.1.escape = Escape.outside.next c := by
  rw [readPlain] at h
  split_ifs at h with hq hb hn
  · cases h
    rw [hq]
    rfl
  · cases h
    rw [hb]
    rfl
  · cases h
    simp [State.escape, Escape.next, hb]

theorem escape_of_readEscape {c : Char} {r : State × Bytes} (h : readEscape c = some r) :
    r.1.escape = Escape.begun.next c := by
  rw [readEscape] at h
  split_ifs at h with hx hu hU ho hn
  · cases h
    rw [hx]
    rfl
  · cases h
    rw [hu]
    rfl
  · cases h
    rw [hU]
    rfl
  · cases h
    simp [State.escape, Escape.next, hx, ho]
  · cases h
    simp [State.escape, Escape.next, hx, ho]

theorem ne_backslash_of_isHexDigit {c : Char} (h : isHexDigit c = true) : c ≠ '\\' := by
  rintro rfl
  revert h
  decide

theorem ne_backslash_of_isSpace {c : Char} (h : isSpace c = true) : c ≠ '\\' := by
  rintro rfl
  revert h
  decide

/-- Where a state absorbs no digit, a character is read as if no escape were open. -/
theorem step_of_not_absorbs {state : State} {c : Char} (hs : state.Closable)
    (hc : state.escape.absorbs c = false) :
    step state c = (readPlain c).map (emit state.pending) := by
  cases state with
  | inside => exact (map_emit_nil _).symm
  | hex n =>
    have hc : isHexDigit c = false := hc
    simp [step, hc, State.pending]
  | octal more n =>
    have hc : isOctDigit c = false := hc
    simp [step, hc, State.pending]
  | between => cases hs
  | begun => cases hs
  | hexFirst => cases hs
  | universal => cases hs

theorem step_backslash {state : State} (h : state.Closable) :
    step state '\\' = some (.begun, state.pending) := by
  rw [step_of_not_absorbs h (by cases state <;> rfl)]
  show some (State.begun, state.pending ++ []) = _
  rw [List.append_nil]

theorem next_of_not_absorbs {e : Escape} {c : Char} (he : e ≠ .begun)
    (hc : e.absorbs c = false) : e.next c = Escape.outside.next c := by
  cases e with
  | outside => rfl
  | begun => exact absurd rfl he
  | hex =>
    have hc : isHexDigit c = false := hc
    simp [Escape.next, hc]
  | octal more =>
    have hd : isOctDigit c = false := hc
    cases more with
    | true => simp only [Escape.next, hd, Bool.false_eq_true, if_false]
    | false => simp only [Escape.next, hd, Bool.false_eq_true, if_false]

theorem State.Closable.escape_ne_begun {state : State} (h : state.Closable) :
    state.escape ≠ .begun := by
  cases state with
  | begun => cases h
  | between => cases h
  | _ => simp [State.escape]

theorem escape_of_step_of_not_absorbs {state : State} {c : Char} {r : State × Bytes}
    (hs : state.Closable) (hc : state.escape.absorbs c = false) (h : step state c = some r) :
    r.1.escape = state.escape.next c := by
  rw [step_of_not_absorbs hs hc] at h
  obtain ⟨r', hr', rfl⟩ := Option.map_eq_some_iff.1 h
  rw [next_of_not_absorbs hs.escape_ne_begun hc]
  exact escape_of_readPlain (r := r') hr'

theorem escape_of_step {state : State} {c : Char} {r : State × Bytes}
    (h : step state c = some r) : r.1.escape = state.escape.next c := by
  cases state with
  | between =>
    simp only [step] at h
    split at h
    · next hc =>
      obtain rfl := Option.some.inj h
      subst hc
      rfl
    · split at h
      · next hc =>
        obtain rfl := Option.some.inj h
        simp [State.escape, Escape.next, ne_backslash_of_isSpace hc]
      · cases h
  | inside => exact escape_of_step_of_not_absorbs trivial rfl h
  | begun => exact escape_of_readEscape h
  | hexFirst =>
    simp only [step] at h
    split at h
    · next hc =>
      obtain rfl := Option.some.inj h
      simp [State.escape, Escape.next, hc]
    · cases h
  | hex n =>
    by_cases hc : isHexDigit c = true
    · simp only [step, hc, if_true] at h
      obtain rfl := Option.some.inj h
      simp [State.escape, Escape.next, hc]
    · have habsorbs : Escape.hex.absorbs c = false := eq_false_of_ne_true hc
      exact escape_of_step_of_not_absorbs trivial habsorbs h
  | octal more n =>
    by_cases hc : isOctDigit c = true
    · simp only [step, hc, if_true] at h
      cases more with
      | true =>
        obtain rfl := Option.some.inj h
        simp [State.escape, Escape.next, hc]
      | false =>
        obtain rfl := Option.some.inj h
        simp [State.escape, Escape.next, hc]
    · have habsorbs : (Escape.octal more).absorbs c = false := eq_false_of_ne_true hc
      exact escape_of_step_of_not_absorbs trivial habsorbs h
  | universal missing n =>
    simp only [step] at h
    split at h
    · next hc =>
      have hb := ne_backslash_of_isHexDigit hc
      cases missing with
      | zero =>
        obtain rfl := Option.some.inj h
        simp [State.escape, Escape.next, hb]
      | succ missing =>
        obtain rfl := Option.some.inj h
        simp [State.escape, Escape.next, hb]
    · cases h

/-! ## Runs -/

theorem escape_of_run {state : State} {s : List Char} {r : State × Bytes}
    (h : run state s = some r) : r.1.escape = s.foldl Escape.next state.escape := by
  induction s generalizing state r with
  | nil =>
    obtain rfl := Option.some.inj h
    rfl
  | cons c s ih =>
    obtain ⟨r', hr', h⟩ := Option.bind_eq_some_iff.1 h
    obtain ⟨r'', hr'', rfl⟩ := Option.map_eq_some_iff.1 h
    rw [List.foldl_cons, ← escape_of_step hr']
    exact ih (r := r'') hr''

theorem after_eq_of_run {content : List Char} {r : State × Bytes}
    (h : run .inside content = some r) : Escape.after content = r.1.escape :=
  (escape_of_run h).symm

theorem run_of_not_absorbs {state : State} {c : Char} {s : List Char} (hs : state.Closable)
    (hc : state.escape.absorbs c = false) :
    run state (c :: s) = (run .inside (c :: s)).map (emit state.pending) := by
  rw [run_cons, run_cons, step_of_not_absorbs hs hc]
  show _ = ((readPlain c).bind _).map _
  cases readPlain c with
  | none => rfl
  | some r => simp only [Option.map_some, Option.bind_some, emit, map_emit_emit]

theorem absorbs_quote (e : Escape) : e.absorbs '"' = false := by
  cases e <;> rfl

/-- The literal break ends an open escape. -/
theorem run_literalBreak {state : State} (hs : state.Closable) (s : List Char) :
    run state (literalBreak ++ s) = (run .inside s).map (emit state.pending) := by
  show run state ('"' :: ' ' :: '"' :: s) = _
  rw [run_of_not_absorbs hs (absorbs_quote _)]
  show ((((run .inside s).map (emit [])).map (emit [])).map (emit [])).map _ = _
  simp only [map_emit_nil]

/-! ## Contents -/

theorem holds_nil : Holds [] [] := ⟨.inside, [], rfl, trivial, rfl⟩

/-- A content behind another one: its reader begins with what was pending. -/
theorem Holds.append {content segment : List Char} {bytes bytes' : Bytes} {sep : List Char}
    (h : Holds content bytes) (h' : Holds segment bytes')
    (hrun : ∀ state out, run .inside content = some (state, out) → state.Closable →
      run state (sep ++ segment) = (run .inside segment).map (emit state.pending)) :
    Holds (content ++ sep ++ segment) (bytes ++ bytes') := by
  obtain ⟨state, out, hr, hs, rfl⟩ := h
  obtain ⟨state', out', hr', hs', rfl⟩ := h'
  refine ⟨state', out ++ (state.pending ++ out'), ?_, hs', by simp⟩
  rw [List.append_assoc, run_append, hr, Option.bind_some, hrun state out hr hs, hr']
  rfl

theorem holds_appendSegment {content segment : List Char} {bytes bytes' : Bytes}
    (h : Holds content bytes) (h' : Holds segment bytes') :
    Holds (appendSegment content segment) (bytes ++ bytes') := by
  cases segment with
  | nil =>
    obtain ⟨state, out, hr, -, rfl⟩ := h'
    cases hr
    simpa [appendSegment, State.pending] using h
  | cons c s =>
    simp only [appendSegment]
    split
    · exact h.append h' fun state _ _ hs => run_literalBreak hs _
    · next hc =>
      -- No break is put here, since the last escape of the content ends anyway.
      rw [← List.append_nil content]
      refine h.append h' fun state out hr hs => ?_
      rw [after_eq_of_run hr] at hc
      exact run_of_not_absorbs hs (by simpa using hc)

theorem holds_foldl_appendSegment {segments : List (List Char)} {values : List Bytes}
    {content : List Char} {bytes : Bytes} (h : Holds content bytes)
    (hs : List.Forall₂ Holds segments values) :
    Holds (segments.foldl appendSegment content) (bytes ++ values.flatten) := by
  induction hs generalizing content bytes with
  | nil => simpa using h
  | cons h' _ ih =>
    rw [List.foldl_cons, List.flatten_cons, ← List.append_assoc]
    exact ih (holds_appendSegment h h')

/-- Adjacent literals have the bytes of the one literal made of them. -/
theorem holds_concatSegments {segments : List (List Char)} {values : List Bytes}
    (h : List.Forall₂ Holds segments values) :
    Holds (concatSegments segments) values.flatten :=
  holds_foldl_appendSegment holds_nil h

/-- A content holds the bytes of the literal between double quotes. -/
theorem value?_quoted {content : List Char} {bytes : Bytes} (h : Holds content bytes) :
    value? (quoted content) = some bytes := by
  obtain ⟨state, out, hr, hs, rfl⟩ := h
  have hrun : run .between (quoted content) = some (.between, out ++ state.pending) := by
    show ((run .inside (content ++ ['"'])).map (emit [])) = _
    rw [map_emit_nil, run_append, hr, Option.bind_some,
      run_of_not_absorbs hs (absorbs_quote _)]
    show some (State.between, out ++ (state.pending ++ [])) = _
    rw [List.append_nil]
  rw [value?, hrun]

end CLiteral

end FlashStrings
