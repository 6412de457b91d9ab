import FlashStrings.Literal.PlainText
import FlashStrings.Proofs.Literal.Complete
import FlashStrings.Proofs.Literal.Initializer

/-!
# The value of an escaped text

The initialiser of an escaped text always is a sequence of complete literals, and
what it holds is known exactly: it holds the UTF-8 bytes of the text if and only
if no control character that is written as a hexadecimal escape has a hexadecimal
digit behind it.  The escape takes such a digit, and at least one byte is lost.

Behind each character of the text, a reader of the escaped text is either in a
literal or behind the digits of a hexadecimal escape (`AtText`), so one lemma for
each of the two ways to read a character is enough (`run_escapeChar`,
`run_escapeChar_of_isHexDigit`).
-/

namespace FlashStrings

/-- A character that `escapeChar` writes as a hexadecimal escape. -/
def isHexEscaped (c : Char) : Bool :=
  isAsciiControl c && c != '\n' && c != '\r' && c != '\t'

namespace CLiteral

variable {hex : Bool} {state : State} {c : Char}

/-! ## One character -/

theorem isHexDigit_of_isAsciiControl (h : isAsciiControl c = true) : isHexDigit c = false := by
  refine eq_false_of_ne_true fun hd => ?_
  simp only [isAsciiControl, Bool.or_eq_true, decide_eq_true_eq, beq_iff_eq] at h
  simp only [isHexDigit, Char.isDigit, Bool.or_eq_true, Bool.and_eq_true, decide_eq_true_eq] at hd
  have e : c.toNat = c.val.toNat := rfl
  rcases hd with (⟨hl, hg⟩ | ⟨hl, hg⟩) | ⟨hl, hg⟩
  · have := UInt32.le_iff_toNat_le.1 hl
    have := UInt32.le_iff_toNat_le.1 hg
    simp at *
    omega
  · have := UInt32.le_iff_toNat_le.1 (Char.le_def.1 hl)
    have := UInt32.le_iff_toNat_le.1 (Char.le_def.1 hg)
    simp at *
    omega
  · have := UInt32.le_iff_toNat_le.1 (Char.le_def.1 hl)
    have := UInt32.le_iff_toNat_le.1 (Char.le_def.1 hg)
    simp at *
    omega

theorem utf8EncodeChar_of_isAsciiControl (h : isAsciiControl c = true) :
    String.utf8EncodeChar c = [c.toNat.toUInt8] := by
  have hascii : c.val.toNat ≤ 0x7f := by
    simp only [isAsciiControl, Bool.or_eq_true, decide_eq_true_eq, beq_iff_eq] at h
    have e : c.toNat = c.val.toNat := rfl
    omega
  rw [String.utf8EncodeChar, if_pos hascii]
  rfl

/-- The three ways to write a character: by the digits of its byte, by a letter
behind a backslash, and by itself. -/
theorem escapeChar_cases (c : Char) :
    (isHexEscaped c = true ∧ isAsciiControl c = true ∧
        escapeChar c = '\\' :: 'x' :: hexByte c.toNat.toUInt8) ∨
      (isHexEscaped c = false ∧ isHexDigit c = false ∧ ∃ d, escapeChar c = ['\\', d] ∧
        readEscape d = some (.inside, String.utf8EncodeChar c)) ∨
      (isHexEscaped c = false ∧ escapeChar c = [c] ∧
        readPlain c = some (.inside, String.utf8EncodeChar c)) := by
  unfold escapeChar
  split
  · exact .inr (.inl ⟨rfl, rfl, _, rfl, rfl⟩)
  · exact .inr (.inl ⟨rfl, rfl, _, rfl, rfl⟩)
  · exact .inr (.inl ⟨rfl, rfl, _, rfl, rfl⟩)
  · exact .inr (.inl ⟨rfl, rfl, _, rfl, rfl⟩)
  · exact .inr (.inl ⟨rfl, rfl, _, rfl, rfl⟩)
  · next hbackslash hquote hnewline hreturn htab =>
    by_cases hc : isAsciiControl c = true
    · refine .inl ⟨?_, hc, if_pos hc⟩
      simp only [isHexEscaped, hc, Bool.true_and, Bool.and_eq_true, bne_iff_ne]
      exact ⟨⟨hnewline, hreturn⟩, htab⟩
    · refine .inr (.inr ⟨?_, if_neg hc, readPlain_eq_some hquote hbackslash hnewline⟩)
      simp [isHexEscaped, hc]

/-- The states of a reader behind a character of the text; `hex` says that the
character is written as a hexadecimal escape. -/
inductive AtText : Bool → State → Prop where
  | inside : AtText false .inside
  | hex (n : Nat) : AtText true (.hex n)

theorem AtText.closable (h : AtText hex state) : state.Closable := by
  cases h with
  | inside => trivial
  | hex n => trivial

theorem AtText.absorbs_eq_false (h : AtText hex state)
    (hc : hex = true → isHexDigit c = false) : state.escape.absorbs c = false := by
  cases h with
  | inside => rfl
  | hex n => exact hc rfl

/-- A character that no escape takes is read as its own bytes. -/
theorem run_escapeChar (h : AtText hex state) (hc : hex = true → isHexDigit c = false) :
    ∃ next out, run state (escapeChar c) = some (next, out) ∧ AtText (isHexEscaped c) next ∧
      out ++ next.pending = state.pending ++ String.utf8EncodeChar c := by
  have hclose := h.closable
  obtain ⟨hx, hctrl, he⟩ | ⟨hx, -, d, he, hread⟩ | ⟨hx, he, hread⟩ := escapeChar_cases c
  · have hrun := run_byteEscape hclose c.toNat.toUInt8 []
    rw [List.append_nil] at hrun
    rw [he, hrun, hx, utf8EncodeChar_of_isAsciiControl hctrl]
    refine ⟨.hex c.toNat.toUInt8.toNat, state.pending, ?_, .hex _, ?_⟩
    · simp [run, emit]
    · rw [State.pending, Nat.toUInt8, UInt8.ofNat_toNat]
  · have hescape : step .begun d = some (.inside, String.utf8EncodeChar c) := hread
    rw [he, hx]
    refine ⟨.inside, state.pending ++ String.utf8EncodeChar c, ?_, .inside, List.append_nil _⟩
    rw [run_cons, step_backslash hclose, Option.bind_some, run_cons, hescape]
    simp [run, emit]
  · rw [he, hx]
    refine ⟨.inside, state.pending ++ String.utf8EncodeChar c, ?_, .inside, List.append_nil _⟩
    rw [run_cons, step_of_not_absorbs hclose (h.absorbs_eq_false hc), hread]
    simp [run, emit]

/-- A digit behind a hexadecimal escape is taken by it. -/
theorem run_escapeChar_of_isHexDigit (hc : isHexDigit c = true) (n : Nat) :
    run (.hex n) (escapeChar c) = some (.hex (16 * n + digitValue c), []) := by
  obtain ⟨-, hctrl, -⟩ | ⟨-, hd, -⟩ | ⟨-, he, -⟩ := escapeChar_cases c
  · exact absurd (hc.symm.trans (isHexDigit_of_isAsciiControl hctrl)) (by decide)
  · exact absurd (hc.symm.trans hd) (by decide)
  · rw [he, run_cons, step, if_pos hc]
    rfl

/-! ## Texts -/

/-- No character of the text would be taken as a digit, neither by a hexadecimal
escape before the text nor by one that a character of the text is written as. -/
def Apart (hex : Bool) : List Char → Prop
  | [] => True
  | c :: s => (hex = true → isHexDigit c = false) ∧ Apart (isHexEscaped c) s

theorem apart_iff (hex : Bool) (s : List Char) :
    Apart hex s ↔ (hex = true → ∀ c ∈ s.head?, isHexDigit c = false) ∧
      s.IsChain fun c d => isHexEscaped c = true → isHexDigit d = false := by
  induction s generalizing hex with
  | nil => simp [Apart]
  | cons c s ih =>
    rw [Apart, ih]
    cases s with
    | nil => simp
    | cons d s =>
      rw [List.isChain_cons_cons]
      simp only [List.head?_cons, Option.mem_def, Option.some.injEq, forall_eq']

/-- An escaped text is read as the bytes of the text where its characters stay
apart, and as fewer bytes where they do not. -/
theorem run_escaped (h : AtText hex state) (s : List Char) :
    ∃ last out, run state (s.flatMap escapeChar) = some (last, out) ∧ last.Closable ∧
      (Apart hex s ∧
          out ++ last.pending = state.pending ++ s.flatMap String.utf8EncodeChar ∨
        ¬Apart hex s ∧ (out ++ last.pending).length <
          (state.pending ++ s.flatMap String.utf8EncodeChar).length) := by
  induction s generalizing hex state with
  | nil => exact ⟨state, [], rfl, h.closable, .inl ⟨trivial, by simp⟩⟩
  | cons c s ih =>
    rw [List.flatMap_cons, List.flatMap_cons, run_append]
    by_cases hc : hex = true → isHexDigit c = false
    · obtain ⟨next, out, hnext, hstate, hbytes⟩ := run_escapeChar h hc
      obtain ⟨last, rest, hlast, hclose, hrest⟩ := ih hstate
      refine ⟨last, out ++ rest, ?_, hclose, ?_⟩
      · rw [hnext, Option.bind_some, hlast]
        rfl
      rw [← List.append_assoc state.pending, ← hbytes, List.append_assoc, List.append_assoc]
      obtain ⟨hapart, heq⟩ | ⟨hapart, hlt⟩ := hrest
      · exact .inl ⟨⟨hc, hapart⟩, by rw [heq]⟩
      · refine .inr ⟨fun hall => hapart hall.2, ?_⟩
        simpa [Nat.add_assoc] using hlt
    · simp only [Classical.not_imp, Bool.not_eq_false] at hc
      obtain ⟨rfl, hdigit⟩ := hc
      cases h with
      | hex n =>
        -- The digit only changes the value of the byte that is pending, so the
        -- bytes of this character are missing at the end.
        obtain ⟨last, rest, hlast, hclose, hrest⟩ := ih (.hex (16 * n + digitValue c))
        refine ⟨last, rest, ?_, hclose, .inr ⟨fun hall => ?_, ?_⟩⟩
        · rw [run_escapeChar_of_isHexDigit hdigit, Option.bind_some, hlast]
          rfl
        · exact absurd (hdigit.symm.trans (hall.1 rfl)) (by decide)
        · have hpos : 0 < (String.utf8EncodeChar c).length :=
            List.length_pos_of_ne_nil String.utf8EncodeChar_ne_nil
          have hle : (rest ++ last.pending).length ≤
              ([(16 * n + digitValue c).toUInt8] ++ s.flatMap String.utf8EncodeChar).length := by
            obtain ⟨-, heq⟩ | ⟨-, hlt⟩ := hrest
            · exact Nat.le_of_eq (congrArg List.length heq)
            · exact Nat.le_of_lt hlt
          simp only [State.pending, List.length_append, List.length_singleton] at hle ⊢
          omega

/-- The initialiser of an escaped text always has a value.  It is the bytes of the
text exactly where no hexadecimal digit stands behind a character that is written
as a hexadecimal escape. -/
theorem value?_initializerOf_escapeText (text : String) :
    ∃ bytes, value? (initializerOf (escapeText text)).toList = some bytes ∧
      (bytes = Utf8.encode text ↔
        text.toList.IsChain fun c d => isHexEscaped c = true → isHexDigit d = false) := by
  obtain ⟨last, out, hrun, hclose, hbytes⟩ := run_escaped .inside text.toList
  refine ⟨out ++ last.pending, ?_, ?_⟩
  · simp only [initializerOf, escapeText, String.toList_ofList]
    rw [value?_initializer]
    exact value?_quoted ⟨last, out, hrun, hclose, rfl⟩
  · have hapart := apart_iff false text.toList
    simp only [Bool.false_eq_true, false_imp_iff, true_and] at hapart
    rw [← hapart]
    obtain ⟨hapart, heq⟩ | ⟨hapart, hlt⟩ := hbytes
    · exact ⟨fun _ => hapart, fun _ => heq⟩
    · refine ⟨fun heq => ?_, fun h => absurd h hapart⟩
      exact absurd (congrArg List.length heq) (Nat.ne_of_lt hlt)

/-- The text of U+0001 and `A` is written as one byte, with the value 26. -/
theorem value?_control_before_digit :
    value? (initializerOf (escapeText "\x01A")).toList = some [0x1a] ∧
      Utf8.encode "\x01A" = [0x01, 0x41] := by decide +kernel

end CLiteral

end FlashStrings
