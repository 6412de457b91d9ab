import FlashStrings.Proofs.Literal.Concat
import FlashStrings.Proofs.Text.Quoted

/-!
# Complete contents

A content is complete if it can stand between double quotes: it holds no newline
and no quote without a backslash, and its escape sequences have the digits that
they need.  A complete content has a value (`exists_holds`), and it is quotable
(`isQuotable_of_isComplete`).
-/

namespace FlashStrings

namespace CLiteral

/-- The number of digits that have to follow a character behind a backslash. -/
def digitsAfter : Char → Nat
  | 'x' => 1
  | 'u' => 4
  | 'U' => 8
  | _ => 0

/-- The text begins with so many hexadecimal digits. -/
def startsWithDigits : Nat → List Char → Bool
  | 0, _ => true
  | _ + 1, [] => false
  | n + 1, c :: s => isHexDigit c && startsWithDigits n s

/-- The content of one complete literal, without a continued line. -/
def isComplete : List Char → Bool
  | [] => true
  | ['\\'] => false
  | '\\' :: c :: s => c != '\n' && startsWithDigits (digitsAfter c) s && isComplete s
  | c :: s => c != '"' && c != '\n' && isComplete s

/-- The digits that a state needs are there. -/
def State.Ready : State → List Char → Prop
  | .inside, _ | .hex _, _ | .octal _ _, _ => True
  | .hexFirst, s => startsWithDigits 1 s = true
  | .universal missing _, s => startsWithDigits (missing + 1) s = true
  | .between, _ | .begun, _ => False

/-! ## Reading a complete content -/

theorem readPlain_eq_some {c : Char} (hquote : c ≠ '"') (hbackslash : c ≠ '\\')
    (hnewline : c ≠ '\n') : readPlain c = some (.inside, String.utf8EncodeChar c) := by
  rw [readPlain, if_neg hquote, if_neg hbackslash, if_neg hnewline]

theorem ready_of_readEscape {c : Char} {s : List Char} (hc : c ≠ '\n')
    (hd : startsWithDigits (digitsAfter c) s = true) :
    ∃ state out, readEscape c = some (state, out) ∧ state.Ready s := by
  rw [readEscape]
  split_ifs with hx hu hU ho
  · subst hx
    exact ⟨_, _, rfl, hd⟩
  · subst hu
    exact ⟨_, _, rfl, hd⟩
  · subst hU
    exact ⟨_, _, rfl, hd⟩
  · exact ⟨_, _, rfl, trivial⟩
  · exact ⟨_, _, rfl, trivial⟩

/-- In a complete content, no character leaves a state that needs more digits
than there are. -/
theorem ready_of_step {state : State} {c : Char} {s : List Char} (h : state.Ready (c :: s))
    (hquote : c ≠ '"') (hbackslash : c ≠ '\\') (hnewline : c ≠ '\n') :
    ∃ state' out, step state c = some (state', out) ∧ state'.Ready s := by
  have hplain := readPlain_eq_some hquote hbackslash hnewline
  cases state with
  | between => cases h
  | inside => exact ⟨_, _, hplain, trivial⟩
  | begun => cases h
  | hexFirst =>
    have hc : isHexDigit c = true := (Bool.and_eq_true_iff.1 h).1
    exact ⟨_, _, if_pos hc, trivial⟩
  | hex n =>
    by_cases hc : isHexDigit c = true
    · exact ⟨_, _, if_pos hc, trivial⟩
    · refine ⟨.inside, n.toUInt8 :: String.utf8EncodeChar c, ?_, trivial⟩
      rw [step, if_neg hc, hplain]
      rfl
  | octal more n =>
    by_cases hc : isOctDigit c = true
    · cases more with
      | true => exact ⟨_, _, if_pos hc, trivial⟩
      | false => exact ⟨_, _, if_pos hc, trivial⟩
    · refine ⟨.inside, n.toUInt8 :: String.utf8EncodeChar c, ?_, trivial⟩
      rw [step, if_neg hc, hplain]
      rfl
  | universal missing n =>
    obtain ⟨hc, hrest⟩ := Bool.and_eq_true_iff.1 h
    cases missing with
    | zero => exact ⟨_, _, if_pos hc, trivial⟩
    | succ missing => exact ⟨_, _, if_pos hc, hrest⟩

theorem closable_of_ready {state : State} {s : List Char} (h : state.Ready s)
    (hs : startsWithDigits 1 s = false) : state.Closable := by
  cases state with
  | between => cases h
  | inside => trivial
  | begun => cases h
  | hexFirst => exact absurd (h.symm.trans hs) (by decide)
  | hex => trivial
  | octal => trivial
  | universal missing n =>
    cases s with
    | nil => cases h
    | cons c s =>
      have hc : isHexDigit c = true := (Bool.and_eq_true_iff.1 h).1
      simp [startsWithDigits, hc] at hs

theorem run_of_isComplete {state : State} {content : List Char} (h : isComplete content = true)
    (hs : state.Ready content) :
    ∃ state' out, run state content = some (state', out) ∧ state'.Closable := by
  fun_induction isComplete content generalizing state with
  | case1 => exact ⟨state, [], rfl, closable_of_ready hs rfl⟩
  | case2 => cases h
  | case3 c s ih =>
    simp only [Bool.and_eq_true, bne_iff_ne] at h
    obtain ⟨⟨hc, hd⟩, h⟩ := h
    have hclose := closable_of_ready hs rfl
    obtain ⟨next, out, hnext, hready⟩ := ready_of_readEscape hc hd
    obtain ⟨last, rest, hlast, hcl⟩ := ih h hready
    refine ⟨last, state.pending ++ (out ++ rest), ?_, hcl⟩
    have hescape : step .begun c = some (next, out) := hnext
    rw [run_cons, step_backslash hclose, Option.bind_some, run_cons, hescape, Option.bind_some,
      hlast]
    rfl
  | case4 c s hlone hpair ih =>
    simp only [Bool.and_eq_true, bne_iff_ne] at h
    obtain ⟨⟨hquote, hnewline⟩, h⟩ := h
    have hbackslash := ne_backslash_of_alone hlone hpair
    obtain ⟨next, out, hnext, hready⟩ := ready_of_step hs hquote hbackslash hnewline
    obtain ⟨last, rest, hlast, hcl⟩ := ih h hready
    refine ⟨last, out ++ rest, ?_, hcl⟩
    rw [run_cons, hnext, Option.bind_some, hlast]
    rfl

/-- A complete content has a value. -/
theorem exists_holds {content : List Char} (h : isComplete content = true) :
    ∃ bytes, Holds content bytes := by
  have hready : State.inside.Ready content := trivial
  obtain ⟨state, out, hr, hs⟩ := run_of_isComplete h hready
  exact ⟨_, state, out, hr, hs, rfl⟩

theorem isQuotable_of_isComplete {content : List Char} (h : isComplete content = true) :
    isQuotable content = true := by
  fun_induction isComplete content with
  | case1 => rfl
  | case2 => cases h
  | case3 c content ih =>
    simp only [Bool.and_eq_true] at h
    exact ih h.2
  | case4 c content hlone hpair ih =>
    rw [isQuotable_cons (ne_backslash_of_alone hlone hpair)]
    simp only [Bool.and_eq_true] at h ⊢
    exact ⟨h.1, ih h.2⟩

end CLiteral

end FlashStrings
