import FlashStrings.Proofs.Source.Appended
import FlashStrings.Proofs.Source.Directives

/-!
# Steps

The step at a name in parts (`Scan.namedStep`).  No lexeme takes more characters than there
are, so no step leads behind the end of the text (`Scan.step_width_le`).  In the states of a
scan the body of a macro definition ends in the text as well (`Scan.State.Reaches.stop_le`).
-/

namespace FlashStrings

namespace Lexeme

variable {s : List Char} {n : Nat}

theorem lineComment_le (s : List Char) : lineComment s ≤ s.length := by
  fun_induction lineComment s with
  | case1 => exact Nat.le_refl 0
  | case2 s ih => simpa using ih
  | case3 s ih => simpa using ih
  | case4 => exact Nat.zero_le _
  | case5 c s _ _ _ ih => simpa using ih

theorem blockComment_le (s : List Char) : blockComment s ≤ s.length := by
  rcases exists_blockComment s with hall | ⟨body, rest, rfl, hlen, -⟩
  · exact Nat.le_of_eq hall
  · rw [hlen, List.length_append, List.length_cons, List.length_cons]
    omega

theorem comment?_le (h : comment? s = some n) : n ≤ s.length := by
  unfold comment? at h
  split at h
  · next s =>
    obtain rfl := Option.some.inj h
    simpa using lineComment_le s
  · next s =>
    obtain rfl := Option.some.inj h
    simpa using blockComment_le s
  · cases h

theorem literal?_le (h : literal? s = some n) : n ≤ s.length := by
  unfold literal? at h
  split at h
  · cases h
  · split at h
    · obtain ⟨⟨body, rest⟩, hbody, rfl⟩ := Option.map_eq_some_iff.1 h
      have := quoted?_length hbody
      simp only [List.length_cons]
      omega
    · cases h

theorem width_le (c : Char) (s : List Char) : width (c :: s) ≤ (c :: s).length := by
  rw [width]
  cases hcomment : comment? (c :: s) with
  | some n => exact comment?_le hcomment
  | none =>
    cases hliteral : literal? (c :: s) with
    | some n => exact literal?_le hliteral
    | none => exact Nat.succ_le_succ (Nat.zero_le _)

theorem logicalLine_le (s : List Char) : logicalLine s ≤ s.length := by
  fun_induction logicalLine s with
  | case1 => exact Nat.le_refl 0
  | case2 s ih => simpa using ih
  | case3 s ih => simpa using ih
  | case4 => exact Nat.zero_le _
  | case5 c s _ _ _ _ ih =>
    have := width_le c s
    rw [List.length_drop] at ih
    omega

theorem through_le (word s : List Char) : through word s ≤ s.length := by
  induction s with
  | nil => exact Nat.le_refl 0
  | cons c s ih =>
    rw [through]
    split
    · next h => exact (List.isPrefixOf_iff_prefix.1 h).length_le
    · exact Nat.succ_le_succ ih

theorem rawString_le (s : List Char) : rawString s ≤ s.length := by
  obtain ⟨delimiter, rest, rfl, hdelimiter, -⟩ := exists_takeWhile (· != '(') s
  simp only [rawString, hdelimiter, List.drop_left]
  split
  · exact Nat.zero_le _
  · next body =>
    split
    · exact Nat.zero_le _
    · have := through_le (')' :: delimiter ++ ['"']) body
      rw [List.length_append, List.length_cons]
      omega

end Lexeme

theorem Argument.collect_width_le {depth width width' : Nat} {found ps : List Piece}
    {s : List Char} (h : collect depth found width s = .ok (ps, width')) :
    width' ≤ width + s.length := by
  fun_induction collect depth found width s with
  | case1 => cases h
  | case2 depth found width s ih =>
    have := ih h
    rw [List.length_cons]
    omega
  | case3 found width s =>
    obtain ⟨-, rfl⟩ := Prod.mk.inj (Except.ok.inj h)
    simp
  | case4 found width s depth _ ih =>
    have := ih h
    rw [List.length_cons]
    omega
  | case5 depth found width c s _ _ _ body rest hbody _ ih =>
    have := ih h
    have := quoted?_length hbody
    rw [List.length_cons]
    omega
  | case6 => cases h
  | case7 depth found width c s _ _ _ n hn _ ih =>
    have hwidth := ih h
    have := Lexeme.comment?_le hn
    rw [List.length_drop] at hwidth
    omega
  | case8 depth found width c s _ _ _ _ ih =>
    have := ih h
    rw [List.length_cons]
    omega

namespace Scan

variable {settings : ScanSettings} {c : Cursor} {body : DefineBody}

theorem invocation_width_le (settings : ScanSettings) (c : Cursor) (body : DefineBody)
    (kind : RecordKind) (name : String) (args : List Char) :
    (invocation settings c body kind name args).2 ≤ args.length := by
  rw [invocation]
  cases hextract : Argument.extract args with
  | error e => exact Nat.zero_le _
  | ok read =>
    obtain ⟨ps, width⟩ := read
    have hwidth : width ≤ args.length := by simpa using Argument.collect_width_le hextract
    dsimp only
    split
    · exact hwidth
    · split
      · exact Nat.zero_le _
      · exact hwidth

theorem parameterList_le (line : List Char) : (parameterList line).1 ≤ line.length := by
  rcases parameterList_cases line with hzero | ⟨list, rest, rfl, hwidth⟩
  · rw [hzero]
    exact Nat.zero_le _
  · rw [hwidth, List.length_cons, List.length_append, List.length_cons]
    omega

/-- A directive and the body that it begins end in the text. -/
theorem directive_le (c : Cursor) (body : DefineBody) (s : List Char) :
    (directive c body s).width ≤ s.length + 1 ∧
      ((directive c body s).body.stop ≤ c.offset + s.length + 1 ∨
        (directive c body s).body = body) := by
  obtain ⟨blanks, name, gap, defined, rest, hparts⟩ := exists_directiveParts s
  obtain ⟨hwidth, hbody⟩ := hparts.directive_eq c body
  have hlength := congrArg List.length hparts.eq
  have hline := Lexeme.logicalLine_le rest
  have hlist := parameterList_le (rest.take (Lexeme.logicalLine rest))
  simp only [List.length_append, List.length_take] at hlength hlist
  constructor
  · rw [hwidth]
    split
    · split <;> omega
    · omega
  · rw [hbody]
    split
    · exact .inl (by simp only; omega)
    · exact .inr rfl

/-- What a step at a name takes and finds: the name in two parts and the text behind it. -/
def namedStep (settings : ScanSettings) (c : Cursor) (body : DefineBody) (first : Char)
    (more rest : List Char) : Nat × Option Finding :=
  let word := String.ofList (first :: more)
  if rest.head? == some '"' && Lexeme.rawMarks.contains word then
    (1 + more.length + 1 + Lexeme.rawString rest.tail, none)
  else
    match macroKind? word with
    | none => (1 + more.length, none)
    | some kind =>
      match rest.drop (Lexeme.trivia rest) with
      | '(' :: args =>
        let (found, taken) := invocation settings c body kind word args
        (1 + more.length + Lexeme.trivia rest + 1 + taken, found)
      | _ => (1 + more.length, none)

theorem name_eq {more rest : List Char} (hmore : (more ++ rest).takeWhile isNameChar = more)
    (settings : ScanSettings) (c : Cursor) (body : DefineBody) (first : Char) :
    (Scan.name settings c body first (more ++ rest)).width =
        (namedStep settings c body first more rest).1 ∧
      (Scan.name settings c body first (more ++ rest)).body = body ∧
      (Scan.name settings c body first (more ++ rest)).found =
        (namedStep settings c body first more rest).2 := by
  simp only [Scan.name, hmore, List.drop_left, namedStep]
  generalize rest.drop (Lexeme.trivia rest) = behind
  split
  · exact ⟨rfl, rfl, rfl⟩
  cases macroKind? (String.ofList (first :: more)) with
  | none => exact ⟨rfl, rfl, rfl⟩
  | some kind =>
    cases behind with
    | nil => exact ⟨rfl, rfl, rfl⟩
    | cons d args =>
      by_cases hopening : d = '('
      · subst hopening
        exact ⟨rfl, rfl, rfl⟩
      · simp [hopening]

theorem name_width_le (settings : ScanSettings) (c : Cursor) (body : DefineBody) (first : Char)
    (s : List Char) : (Scan.name settings c body first s).width ≤ s.length + 1 := by
  obtain ⟨more, rest, rfl, hmore, -⟩ := exists_takeWhile isNameChar s
  rw [(name_eq hmore settings c body first).1, namedStep, List.length_append]
  split
  · next hraw =>
    simp only [Bool.and_eq_true, beq_iff_eq] at hraw
    obtain ⟨tail, rfl⟩ := List.head?_eq_some_iff.1 hraw.1
    have := Lexeme.rawString_le tail
    simp only [List.tail_cons, List.length_cons]
    omega
  split
  · simp only
    omega
  split
  · next kind _ _ args hargs =>
    have hlength := congrArg List.length hargs
    have := invocation_width_le settings c body kind (String.ofList (first :: more)) args
    rw [List.length_drop, List.length_cons] at hlength
    simp only
    omega
  · simp only
    omega

theorem step_width_le (settings : ScanSettings) (c : Cursor) (body : DefineBody) (first : Char)
    (s : List Char) : (step settings c body first s).width ≤ (first :: s).length := by
  rw [step]
  split
  · exact Nat.succ_le_succ (Nat.zero_le _)
  split
  · exact (directive_le c body s).1
  split
  · exact name_width_le settings c body first s
  split
  · have := (List.takeWhile_prefix isNameChar (l := s)).length_le
    simp only [List.length_cons]
    omega
  · exact Lexeme.width_le first s

/-- A step keeps the body of a definition, or begins one that ends in the text. -/
theorem stop_step_le (settings : ScanSettings) (c : Cursor) (body : DefineBody) (first : Char)
    (s : List Char) :
    (step settings c body first s).body.stop ≤ c.offset + s.length + 1 ∨
      (step settings c body first s).body = body := by
  rw [step]
  split
  · exact .inr rfl
  split
  · exact (directive_le c body s).2
  split
  · exact .inr State.body_name
  split
  · exact .inr rfl
  · exact .inr rfl

/-- In the states of a scan the body of a macro definition ends in the text. -/
theorem State.Reaches.stop_le {text : String} {σ : State}
    (h : Reaches settings (initial text) σ) : σ.body.stop ≤ (withoutMark text).length := by
  induction h with
  | refl => exact Nat.zero_le _
  | @tail σ τ hreached hnext ih =>
    have htext := congrArg List.length (Reaches.text_eq hreached)
    obtain ⟨first, s, hafter, rfl⟩ := of_next? hnext
    rw [Cursor.text, hafter, List.length_append, List.length_reverse] at htext
    rcases stop_step_le settings σ.cursor σ.body first s with hle | hbody
    · exact hle.trans (Nat.le_of_eq htext)
    · rw [hbody]
      exact ih

end Scan

end FlashStrings
