import FlashStrings.Proofs.Source.Records
import FlashStrings.Proofs.Text.Class

/-!
# The step at an invocation

Where a macro name stands at the cursor, with an opening parenthesis behind white
space and comments, the scan makes one step over the name and reads the arguments
(`Scan.step_of_invocation`).  What the arguments give is left to
`Scan.invocation`.
-/

namespace FlashStrings

namespace Scan

variable {settings : ScanSettings} {c : Cursor} {body : DefineBody}

/-! ## Macro names -/

theorem mem_macroNames {name : String} {kind : RecordKind} (h : macroKind? name = some kind) :
    name ∈ kind.macroNames := by
  have hcontains := List.find?_some h
  simpa using hcontains

/-- A macro name begins a name, consists of its characters, and begins no raw string. -/
theorem name_of_macroKind? {name : String} {kind : RecordKind} (h : macroKind? name = some kind) :
    (∃ first more, name.toList = first :: more ∧ isNameStart first = true) ∧
      name.toList.all isNameChar = true ∧ Lexeme.rawMarks.contains name = false := by
  have hall : ∀ kind : RecordKind, ∀ name ∈ kind.macroNames,
      (name.toList.head?.any isNameStart = true) ∧ name.toList.all isNameChar = true ∧
        Lexeme.rawMarks.contains name = false := by
    intro kind
    cases kind <;> decide
  obtain ⟨hfirst, hchars, hraw⟩ := hall kind name (mem_macroNames h)
  refine ⟨?_, hchars, hraw⟩
  cases hname : name.toList with
  | nil =>
    rw [hname] at hfirst
    cases hfirst
  | cons first more =>
    rw [hname] at hfirst
    exact ⟨first, more, rfl, hfirst⟩

/-! ## White space and comments -/

theorem trivia_of_isNameChar {d : Char} (h : isNameChar d = true) (s : List Char) :
    Lexeme.trivia (d :: s) = 0 := by
  have hcomment : Lexeme.comment? (d :: s) = none := by
    refine Lexeme.comment?_of_ne ?_ s
    rintro rfl
    cases h
  have hblank : isCodeBlank d = false := by
    refine eq_false_of_ne_true fun hblank => ?_
    rw [not_isNameChar_of_isBlank (isBlank_of_isCodeBlank hblank)] at h
    cases h
  rw [Lexeme.trivia]
  split
  · next heq => simp [hcomment] at heq
  · simp [hblank]

/-- White space and comments begin with no character of a name. -/
theorem head_of_trivia {gap s : List Char}
    (h : Lexeme.trivia (gap ++ '(' :: s) = gap.length) :
    ∃ d t, gap ++ '(' :: s = d :: t ∧ isNameChar d = false ∧ d ≠ '"' := by
  cases gap with
  | nil => exact ⟨'(', s, rfl, rfl, by decide⟩
  | cons d gap =>
    refine ⟨d, gap ++ '(' :: s, rfl, eq_false_of_ne_true fun hname => ?_, ?_⟩
    · rw [List.cons_append, trivia_of_isNameChar hname] at h
      cases h
    · rintro rfl
      rw [List.cons_append, Lexeme.trivia] at h
      cases h

/-! ## The step -/

theorem step_of_isNameStart {first : Char} {s : List Char} (h : isNameStart first = true) :
    step settings c body first s = Scan.name settings c body first s := by
  have hne : first ≠ '\'' ∧ first ≠ '#' := by
    constructor <;> rintro rfl <;> cases h
  simp [step, hne, h]

/-- The step at what begins no name, number or directive takes the lexeme. -/
theorem step_of_notMem {first : Char} {s : List Char} (hfirst : first ∉ ['\'', '#'])
    (hname : isNameChar first = false) :
    (step settings c body first s).width = Lexeme.width (first :: s) ∧
      (step settings c body first s).body = body ∧ (step settings c body first s).found = none := by
  simp only [List.mem_cons, List.not_mem_nil, or_false, not_or] at hfirst
  rw [isNameChar_eq, Bool.or_eq_false_iff] at hname
  rw [step, if_neg (by simp [hfirst.1]), if_neg (by simp [hfirst.2]), if_neg (by simp [hname.1]),
    if_neg (by simp [hname.2])]
  exact ⟨rfl, rfl, rfl⟩

theorem run_of_after_nil {found : List Finding} (h : c.after = []) :
    run settings c body found = found.reverse := by
  rw [run]
  split
  · rfl
  · next heq =>
    rw [h] at heq
    cases heq

theorem run_of_after_cons {found : List Finding} {first : Char} {s : List Char}
    (h : c.after = first :: s) :
    run settings c body found =
      run settings (c.advance (step settings c body first s).width)
        (step settings c body first s).body
        ((step settings c body first s).found.toList ++ found) := by
  rw [run]
  split
  · next heq =>
    rw [h] at heq
    cases heq
  · next heq =>
    obtain ⟨rfl, rfl⟩ := List.cons.inj (h.symm.trans heq)
    rfl

/-- An invocation is one step, and what it gives depends on its arguments. -/
theorem step_of_invocation (settings : ScanSettings) (c : Cursor) (body : DefineBody)
    {name : String} {kind : RecordKind} {gap args : List Char} {first : Char} {s : List Char}
    (hkind : macroKind? name = some kind)
    (hgap : Lexeme.trivia (gap ++ '(' :: args) = gap.length)
    (hs : first :: s = name.toList ++ (gap ++ '(' :: args)) :
    (step settings c body first s).width =
        name.length + gap.length + 1 + (invocation settings c body kind name args).2 ∧
      (step settings c body first s).body = body ∧
      (step settings c body first s).found = (invocation settings c body kind name args).1 := by
  obtain ⟨⟨_, more, hname, hfirst⟩, hchars, hraw⟩ := name_of_macroKind? hkind
  rw [hname, List.cons_append] at hs
  obtain ⟨rfl, rfl⟩ := List.cons.inj hs
  have hmore : ∀ d ∈ more, isNameChar d = true := by
    rw [hname, List.all_cons, Bool.and_eq_true] at hchars
    exact List.all_eq_true.1 hchars.2
  obtain ⟨d, t, hrest, hd, hquote⟩ := head_of_trivia hgap
  have htake : (more ++ (gap ++ '(' :: args)).takeWhile isNameChar = more := by
    rw [List.takeWhile_append_of_pos hmore, hrest, List.takeWhile_cons_of_neg (by simp [hd]),
      List.append_nil]
  have hword : String.ofList (first :: more) = name := by rw [← hname, String.ofList_toList]
  have hlength : name.length = 1 + more.length := by
    rw [← String.length_toList, hname, List.length_cons, Nat.add_comm]
  rw [step_of_isNameStart hfirst]
  simp only [Scan.name, htake, hword, List.drop_left, hraw, Bool.and_false, Bool.false_eq_true,
    if_false, hkind, hgap, hlength, and_self]

end Scan

end FlashStrings
