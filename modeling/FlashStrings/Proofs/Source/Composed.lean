import FlashStrings.Proofs.Source.Alike
import FlashStrings.Proofs.Source.Boundaries

/-!
# Scanning appended code

Code that is appended to a source changes nothing of what was found before it, and is
scanned as a source of its own some lines further down (`scan_append`).  This needs that the
source is complete: it ends with a line and behind a token that begins nothing, it leaves no
comment and no raw string open, and no invocation of it is refused.

The proof has two parts.  In the first text every step is the one that the scan makes
without the appended text (`Scan.step_append`), since no lexeme reaches beyond the end.  At
the end the cursor looks like the one at the start of the second text, so the scans go on
alike (`Scan.run_alike`).
-/

namespace FlashStrings

/-- White space and comments. -/
inductive Idle : List Char → Prop where
  | nil : Idle []
  | blank {c : Char} {s : List Char} : isBlank c = true → Idle s → Idle (c :: s)
  | comment {n : Nat} {s : List Char} : Lexeme.comment? s = some n → Idle (s.drop n) → Idle s

theorem Idle.head {c : Char} {s : List Char} (h : Idle (c :: s)) :
    isBlank c = true ∨ c = '/' := by
  cases h with
  | blank hc => exact .inl hc
  | comment hn =>
    refine .inr (Decidable.by_contra fun hne => ?_)
    rw [Lexeme.comment?_of_ne hne] at hn
    cases hn

theorem idle_of_trivia {s : List Char} (h : s.drop (Lexeme.trivia s) = []) : Idle s := by
  fun_induction Lexeme.trivia s with
  | case1 => exact .nil
  | case2 c s n hn _ ih =>
    rw [← List.drop_drop] at h
    exact .comment hn (ih h)
  | case3 c s _ hblank ih => exact .blank (isBlank_of_isCodeBlank hblank) (ih h)
  | case4 => cases h

theorem Idle.drop_width {first : Char} {s : List Char} (h : Idle (first :: s)) :
    first ∉ ['\'', '#'] ∧ isNameChar first = false ∧
      Idle ((first :: s).drop (Lexeme.width (first :: s))) := by
  cases h with
  | blank hblank h =>
    have hfirst : first ∉ ['\'', '"', '/', '#'] := by
      intro hmem
      simp only [List.mem_cons, List.not_mem_nil, or_false] at hmem
      rcases hmem with rfl | rfl | rfl | rfl <;> cases hblank
    simp only [List.mem_cons, List.not_mem_nil, or_false, not_or] at hfirst
    refine ⟨by simp [hfirst], not_isNameChar_of_isBlank hblank, ?_⟩
    rw [Lexeme.width_of_notMem (by simp [hfirst])]
    exact h
  | comment hn h =>
    obtain rfl : first = '/' := Decidable.by_contra fun hne => by
      simp [Lexeme.comment?_of_ne hne] at hn
    refine ⟨by decide, rfl, ?_⟩
    rwa [Lexeme.width, hn]

/-! ## Findings -/

/-- What was found, some lines further down. -/
def Finding.shifted (lines : Nat) : Finding → Finding
  | .record r => .record (r.moved lines)
  | .refused e => .refused (e.moved lines)

theorem recordsOf_shifted (lines : Nat) (found : List Finding) :
    recordsOf (found.map (Finding.shifted lines)) = (recordsOf found).map (Record.moved lines) := by
  rw [recordsOf, recordsOf, List.filterMap_map, List.map_filterMap]
  congr 1
  funext x
  cases x <;> rfl

theorem errorsOf_shifted (lines : Nat) (found : List Finding) :
    errorsOf (found.map (Finding.shifted lines)) =
      (errorsOf found).map (ParseError.moved lines) := by
  rw [errorsOf, errorsOf, List.filterMap_map, List.map_filterMap]
  congr 1
  funext x
  cases x <;> rfl

namespace Scan

open DirectiveParts (defines isReserved)

variable {settings : ScanSettings} {c : Cursor} {body : DefineBody} {first : Char}
  {s blanks name gap defined rest : List Char}

/-! ## Complete sources -/

/-- A comment or a raw string that begins at the cursor is not closed, or a comment in the
line of a definition there. -/
inductive LeavesOpen : Cursor → Prop where
  | comment {before s : List Char} :
    ¬['*', '/'] <:+: s → LeavesOpen ⟨before, '/' :: '*' :: s⟩
  | rawString {before delimiter s : List Char} {mark : String} :
    mark ∈ Lexeme.rawMarks → Lexeme.IsDelimiter delimiter →
    ¬ (')' :: delimiter ++ ['"'] <:+: s) →
    LeavesOpen ⟨before, mark.toList ++ '"' :: (delimiter ++ '(' :: s)⟩
  | line {c : Cursor} {s blanks name gap defined rest : List Char} :
    c.atLineStart = true → c.after = '#' :: s → DirectiveParts s blanks name gap defined rest →
    defines name = true → Lexeme.LeavesComment (gap ++ (defined ++ rest)) → LeavesOpen c

/-- Only white space and comments stand behind a semicolon or a closing brace that the scan
comes to, or behind the line of a definition of a string macro, over which it steps. -/
inductive EndsStatement (settings : ScanSettings) (text : String) : Prop where
  | mark {σ : State} {c : Char} {gap : List Char} :
    State.Reaches settings (initial text) σ → σ.cursor.after = c :: gap → c = ';' ∨ c = '}' →
    Idle gap → EndsStatement settings text
  | line {σ : State} {s blanks name gap defined rest : List Char} :
    State.Reaches settings (initial text) σ → σ.cursor.atLineStart = true →
    σ.cursor.after = '#' :: s → DirectiveParts s blanks name gap defined rest →
    defines name = true → isReserved defined = true →
    Idle (rest.drop (Lexeme.logicalLine rest)) → EndsStatement settings text

/-- Nothing but white space and comments follows the name of a string macro at the cursor. -/
def Dangles (c : Cursor) : Prop :=
  ∃ word gap, (macroKind? word).isSome = true ∧ c.after = word.toList ++ gap ∧
    gap.drop (Lexeme.trivia gap) = []

/-! ## Steps before appended text -/

theorem DirectiveParts.rest_lineEnded (h : DirectiveParts s blanks name gap defined rest)
    (hs : LineEnded s) : LineEnded (gap ++ (defined ++ rest)) ∧ LineEnded rest := by
  have hname := h.name_eq
  obtain rfl := h.eq
  rw [List.drop_left] at hname
  have hfirst : LineEnded (name ++ (gap ++ (defined ++ rest))) := by
    have hlt := hs.length_takeWhile_lt (p := isLineBlank) rfl
    rw [h.blanks_eq] at hlt
    simpa using hs.drop hlt
  have hgap : LineEnded (gap ++ (defined ++ rest)) := by
    have hlt := hfirst.length_takeWhile_lt (p := isNameChar) rfl
    rw [hname] at hlt
    simpa using hfirst.drop hlt
  have hdefined : LineEnded (defined ++ rest) := by
    have hlt := hgap.length_takeWhile_lt (p := isLineBlank) rfl
    rw [h.gap_eq] at hlt
    simpa using hgap.drop hlt
  have hlt := hdefined.length_takeWhile_lt (p := isNameChar) rfl
  rw [h.defined_eq] at hlt
  exact ⟨hgap, by simpa using hdefined.drop hlt⟩

/-- The steps are the same. -/
structure SameStep (next next' : Step) : Prop where
  width_eq : next'.width = next.width
  body_eq : next'.body = next.body
  found_eq : next'.found = next.found

theorem SameStep.refl (next : Step) : SameStep next next := ⟨rfl, rfl, rfl⟩

theorem directive_append (hs : LineEnded s) (hstart : c.atLineStart = true)
    (hafter : c.after = '#' :: s) (hopen : ¬LeavesOpen c) (t : List Char) :
    SameStep (directive c body s) (directive ⟨c.before, c.after ++ t⟩ body (s ++ t)) := by
  obtain ⟨blanks, name, gap, defined, rest, hparts⟩ := exists_directiveParts s
  obtain ⟨hgap, hrest⟩ := hparts.rest_lineEnded hs
  have hparts' := hparts.append (by simp [hrest.ne_nil]) t fun hnil => absurd hnil hrest.ne_nil
  obtain ⟨hwidth, hbody⟩ := hparts.directive_eq c body
  obtain ⟨hwidth', hbody'⟩ := hparts'.directive_eq ⟨c.before, c.after ++ t⟩ body
  rw [show Cursor.offset ⟨c.before, c.after ++ t⟩ = c.offset from rfl] at hbody'
  cases hdefines : defines name with
  | false =>
    simp only [hdefines, Bool.false_eq_true, if_false, false_and] at hwidth hwidth' hbody hbody'
    exact ⟨hwidth'.trans hwidth.symm, hbody'.trans hbody.symm,
      by rw [found_directive, found_directive]⟩
  | true =>
    have hline : Lexeme.logicalLine (rest ++ t) = Lexeme.logicalLine rest ∧
        Lexeme.logicalLine rest < rest.length := by
      obtain ⟨heq, hlt⟩ := Lexeme.logicalLine_append hgap
        (fun hleaves => hopen (.line hstart hafter hparts hdefines hleaves)) t
      rw [List.append_assoc, List.append_assoc, hparts'.logicalLine_eq,
        hparts.logicalLine_eq] at heq
      rw [hparts.logicalLine_eq, List.length_append, List.length_append] at hlt
      omega
    rw [hline.1, List.take_append_of_le_length (Nat.le_of_lt hline.2)] at hwidth' hbody'
    exact ⟨hwidth'.trans hwidth.symm, hbody'.trans hbody.symm,
      by rw [found_directive, found_directive]⟩

/-- An invocation that is not refused reads only its own text. -/
theorem invocation_append {kind : RecordKind} {name : String} {args : List Char}
    (hargs : LineEnded args)
    (hrefused : ∀ e, (invocation settings c body kind name args).1 ≠ some (.refused e))
    (t : List Char) :
    invocation settings ⟨c.before, c.after ++ t⟩ body kind name (args ++ t) =
      invocation settings c body kind name args := by
  rw [invocation] at hrefused
  rw [invocation, invocation]
  cases hextract : Argument.extract args with
  | error e =>
    rw [hextract] at hrefused
    exact absurd rfl (hrefused _)
  | ok read =>
    rw [hextract] at hrefused
    rw [show Argument.extract (args ++ t) = .ok read from
      Argument.collect_append_of_ok hargs hextract t]
    obtain ⟨ps, width⟩ := read
    show (if (decide (c.offset < body.stop) && _) = true then _ else _) = _
    dsimp only at hrefused ⊢
    split
    · rfl
    · next hguard =>
      rw [if_neg hguard] at hrefused
      cases hread : readArguments settings kind ps with
      | error e =>
        rw [hread] at hrefused
        exact absurd rfl (hrefused _)
      | ok read => rfl

theorem namedStep_append {more : List Char} (hrest : LineEnded rest)
    (hafter : c.after = first :: (more ++ rest)) (hopen : ¬LeavesOpen c)
    (hrefused : ∀ e, (namedStep settings c body first more rest).2 ≠ some (.refused e))
    (hdangles : ¬Dangles c) (t : List Char) :
    namedStep settings ⟨c.before, c.after ++ t⟩ body first more (rest ++ t) =
      namedStep settings c body first more rest := by
  have hword : (String.ofList (first :: more)).toList ++ rest = c.after := by
    rw [String.toList_ofList, hafter]
    rfl
  rw [namedStep] at hrefused
  rw [namedStep, namedStep, hrest.head?_append]
  split
  · next hraw =>
    simp only [Bool.and_eq_true, beq_iff_eq, List.contains_iff_mem] at hraw
    obtain ⟨tail, rfl⟩ := List.head?_eq_some_iff.1 hraw.1
    have hclosed : Lexeme.ClosesRawString tail := by
      rintro delimiter body rfl hdelimiter
      refine Decidable.by_contra fun hinfix => hopen ?_
      rw [show c = ⟨c.before, (String.ofList (first :: more)).toList ++
        '"' :: (delimiter ++ '(' :: body)⟩ by rw [hword]]
      exact .rawString hraw.2 hdelimiter hinfix
    rw [hrest.tail_append, List.tail_cons,
      Lexeme.rawString_append (hrest.of_ne (by decide)) hclosed]
  · next hraw =>
    rw [if_neg hraw] at hrefused
    cases hkind : macroKind? (String.ofList (first :: more)) with
    | none => rfl
    | some kind =>
      rw [hkind] at hrefused
      have hbehind : rest.drop (Lexeme.trivia rest) ≠ [] := fun hnil =>
        hdangles ⟨_, rest, by rw [hkind]; rfl, hword.symm, hnil⟩
      have hlt : Lexeme.trivia rest < rest.length :=
        Nat.lt_of_not_le fun hle => hbehind (List.drop_of_length_le hle)
      have hgap := hrest.drop hlt
      dsimp only at hrefused ⊢
      rw [Lexeme.trivia_append hrest hbehind, LineEnded.drop_append hlt]
      cases hargs : rest.drop (Lexeme.trivia rest) with
      | nil => exact absurd hargs hbehind
      | cons d args =>
        by_cases hopening : d = '('
        · subst hopening
          rw [hargs] at hrefused hgap
          rw [List.cons_append]
          have hsame := invocation_append (hgap.of_ne (by decide)) hrefused t
          simp only [hsame]
        · simp [hopening]

theorem name_append (hs : LineEnded (first :: s)) (hfirst : first ≠ '\n')
    (hafter : c.after = first :: s) (hopen : ¬LeavesOpen c)
    (hrefused : ∀ e, (Scan.name settings c body first s).found ≠ some (.refused e))
    (hdangles : ¬Dangles c) (t : List Char) :
    SameStep (Scan.name settings c body first s)
      (Scan.name settings ⟨c.before, c.after ++ t⟩ body first (s ++ t)) := by
  have hmore := (hs.of_ne hfirst).takeWhile_append (p := isNameChar) rfl t
  have hlength := (hs.of_ne hfirst).length_takeWhile_lt (p := isNameChar) rfl
  obtain ⟨more, rest, rfl, htake, -⟩ := exists_takeWhile isNameChar s
  rw [htake] at hmore hlength
  have hrest : LineEnded rest := by simpa using (hs.of_ne hfirst).drop hlength
  rw [List.append_assoc] at hmore ⊢
  obtain ⟨hwidth, hbody, hfound⟩ := name_eq htake settings c body first
  obtain ⟨hwidth', hbody', hfound'⟩ :=
    name_eq hmore settings ⟨c.before, c.after ++ t⟩ body first
  rw [hfound] at hrefused
  rw [namedStep_append hrest hafter hopen hrefused hdangles] at hwidth' hfound'
  exact ⟨hwidth'.trans hwidth.symm, hbody'.trans hbody.symm, hfound'.trans hfound.symm⟩

/-- Appended text does not change a step. -/
theorem step_append (hs : LineEnded (first :: s)) (hafter : c.after = first :: s)
    (hopen : ¬LeavesOpen c)
    (hrefused : ∀ e, (step settings c body first s).found ≠ some (.refused e))
    (hdangles : ¬Dangles c) (t : List Char) :
    SameStep (step settings c body first s)
      (step settings ⟨c.before, c.after ++ t⟩ body first (s ++ t)) := by
  have hseparator : isDigitSeparator ⟨c.before, c.after ++ t⟩ = isDigitSeparator c := rfl
  have hstart : Cursor.atLineStart ⟨c.before, c.after ++ t⟩ = c.atLineStart := rfl
  rw [step] at hrefused
  rw [step, step, hseparator, hstart]
  split
  · exact .refl _
  next hquote =>
  rw [if_neg hquote] at hrefused
  split
  · next hmark =>
    obtain ⟨rfl, hatStart⟩ : first = '#' ∧ c.atLineStart = true := by simpa using hmark
    exact directive_append (hs.of_ne (by decide)) hatStart hafter hopen t
  next hmark =>
  rw [if_neg hmark] at hrefused
  split
  · next hstarts =>
    rw [if_pos hstarts] at hrefused
    exact name_append hs (by rintro rfl; cases hstarts) hafter hopen hrefused hdangles t
  split
  · next hdigit =>
    have hfirst : first ≠ '\n' := by rintro rfl; cases hdigit
    refine ⟨?_, rfl, rfl⟩
    show 1 + ((s ++ t).takeWhile isNameChar).length = _
    rw [(hs.of_ne hfirst).takeWhile_append rfl]
  · have hcomment : Lexeme.ClosesComment (first :: s) := by
      intro text htext
      refine Decidable.by_contra fun hinfix => hopen ?_
      rw [show c = ⟨c.before, '/' :: '*' :: text⟩ by rw [← htext, ← hafter]]
      exact .comment hinfix
    exact ⟨(Lexeme.width_append hs hcomment t).1, rfl, rfl⟩

/-! ## Steps over white space and comments -/

/-- The step at the name of a string macro takes the name alone when nothing but white space
and comments follows. -/
theorem width_of_dangling (settings : ScanSettings) (c : Cursor) (body : DefineBody)
    {word : String} (hkind : (macroKind? word).isSome = true)
    (hword : first :: s = word.toList ++ gap) (hgap : gap.drop (Lexeme.trivia gap) = []) :
    isNameStart first = true ∧
      (step settings c body first s).width = word.toList.length := by
  obtain ⟨kind, hkind⟩ := Option.isSome_iff_exists.1 hkind
  obtain ⟨⟨_, more, hname, hfirst⟩, hchars, hraw⟩ := name_of_macroKind? hkind
  rw [hname, List.cons_append] at hword
  obtain ⟨rfl, rfl⟩ := List.cons.inj hword
  have hmore : ∀ d ∈ more, isNameChar d = true := by
    rw [hname, List.all_cons, Bool.and_eq_true] at hchars
    exact List.all_eq_true.1 hchars.2
  have hhead : gap.takeWhile isNameChar = [] := by
    cases gap with
    | nil => rfl
    | cons d gap =>
      rcases (idle_of_trivia hgap).head with hblank | rfl
      · rw [List.takeWhile_cons_of_neg (by simp [not_isNameChar_of_isBlank hblank])]
      · rfl
  have htake : (more ++ gap).takeWhile isNameChar = more := by
    rw [List.takeWhile_append_of_pos hmore, hhead, List.append_nil]
  have hofList : String.ofList (first :: more) = word := by rw [← hname, String.ofList_toList]
  refine ⟨hfirst, ?_⟩
  rw [step_of_isNameStart hfirst, (name_eq htake settings c body first).1, namedStep, hofList,
    hraw, Bool.and_false, if_neg (by decide), hkind, hgap, hname, List.length_cons, Nat.add_comm]

/-! ## The scan before appended text -/

namespace State

variable {σ τ ρ : State} {text : String} {t : List Char}

/-- The state with more text behind it. -/
def append (σ : State) (t : List Char) : State :=
  { σ with cursor := ⟨σ.cursor.before, σ.cursor.after ++ t⟩ }

/-- Appended text does not change where a step leads. -/
theorem next?_append (hs : LineEnded σ.cursor.after) (hopen : ¬LeavesOpen σ.cursor)
    (hdangles : ¬Dangles σ.cursor) (hnext : σ.next? settings = some τ)
    (hrefused : ∀ e, Finding.refused e ∉ τ.found) (t : List Char) :
    (σ.append t).next? settings = some (τ.append t) := by
  obtain ⟨first, s, hafter, rfl⟩ := of_next? hnext
  have hfinds : ∀ e, (step settings σ.cursor σ.body first s).found ≠ some (.refused e) :=
    fun e he => hrefused e (List.mem_append_left _ (Option.mem_toList.2 he))
  obtain ⟨hwidth, hbody, hfound⟩ := step_append (hafter ▸ hs) hafter hopen hfinds hdangles t
  have hle : (step settings σ.cursor σ.body first s).width ≤ σ.cursor.after.length :=
    hafter ▸ step_width_le settings σ.cursor σ.body first s
  have hnext' : (σ.append t).next? settings = some _ :=
    next?_of_after (show σ.cursor.after ++ t = first :: (s ++ t) by rw [hafter]; rfl)
  rw [hnext']
  simp only [append, hwidth, hbody, hfound, Cursor.advance,
    List.take_append_of_le_length hle, List.drop_append_of_le_length hle]

theorem idle_of_next? (h : Idle σ.cursor.after) (hnext : σ.next? settings = some τ) :
    Idle τ.cursor.after := by
  obtain ⟨first, s, hafter, rfl⟩ := of_next? hnext
  rw [hafter] at h
  obtain ⟨hfirst, hname, hidle⟩ := h.drop_width
  show Idle (σ.cursor.after.drop _)
  rwa [(step_of_notMem hfirst hname).1, hafter]

theorem Reaches.idle (h : Reaches settings σ τ) (hidle : Idle σ.cursor.after) :
    Idle τ.cursor.after := by
  induction h with
  | refl => exact hidle
  | tail _ hnext ih => exact idle_of_next? ih hnext

theorem exists_reaches_end (settings : ScanSettings) (σ : State) :
    ∃ τ, Reaches settings σ τ ∧ τ.cursor.after = [] := by
  obtain ⟨c, body, found⟩ := σ
  induction c, body, found using run.induct settings with
  | case1 c body found hafter => exact ⟨_, .refl, hafter⟩
  | case2 c body found first s hafter next _ ih =>
    obtain ⟨τ, hτ, hend⟩ := ih
    exact ⟨τ, .head (next?_of_after hafter) hτ, hend⟩

/-- Of two states of a scan one is reached from the other. -/
theorem Reaches.total (hσ : Reaches settings ρ σ) (hτ : Reaches settings ρ τ) :
    Reaches settings σ τ ∨ Reaches settings τ σ :=
  Relation.ReflTransGen.total_of_right_unique
    (fun _ _ _ h h' => Option.some.inj (h.symm.trans h')) hσ hτ

/-- A scan is at a place once. -/
theorem Reaches.eq_of_cursor (hσ : Reaches settings ρ σ) (hτ : Reaches settings ρ τ)
    (h : σ.cursor = τ.cursor) : σ = τ := by
  have hsame {σ τ : State} (hστ : Reaches settings σ τ) (h : σ.cursor = τ.cursor) : σ = τ := by
    rcases hστ.cases_head with rfl | ⟨υ, hnext, hυ⟩
    · rfl
    · obtain ⟨first, s, hafter, rfl⟩ := of_next? hnext
      have hle := Reaches.length_after_le hυ
      have hpos := (step settings σ.cursor σ.body first s).width_pos
      rw [Cursor.length_after_advance, ← h, hafter, List.length_cons] at hle
      omega
  rcases hσ.total hτ with hστ | hτσ
  · exact hsame hστ h
  · exact (hsame hτσ h.symm).symm

end State

theorem EndsStatement.exists_next? {text : String} (h : EndsStatement settings text) :
    ∃ σ τ first s, State.Reaches settings (initial text) σ ∧ σ.cursor.after = first :: s ∧
      first ∈ [';', '}', '#'] ∧ σ.next? settings = some τ ∧ Idle τ.cursor.after := by
  cases h with
  | @mark σ first gap hreached hafter hfirst hidle =>
    have hwidth : (step settings σ.cursor σ.body first gap).width = 1 := by
      rcases hfirst with rfl | rfl
      · rw [(step_of_notMem (by decide) rfl).1, Lexeme.width_of_notMem (by decide)]
      · rw [(step_of_notMem (by decide) rfl).1, Lexeme.width_of_notMem (by decide)]
    refine ⟨σ, _, first, gap, hreached, hafter, by rcases hfirst with rfl | rfl <;> simp,
      State.next?_of_after hafter, ?_⟩
    show Idle (σ.cursor.after.drop _)
    rwa [hwidth, hafter]
  | @line σ s blanks name gap defined rest hreached hstart hafter hparts hdefines hreserved hidle =>
    obtain ⟨hwidth, -⟩ := hparts.directive_eq σ.cursor σ.body
    rw [if_pos hdefines, if_pos hreserved] at hwidth
    have hdrop : ('#' :: s).drop (1 + blanks.length + name.length +
        (gap.length + defined.length + Lexeme.logicalLine rest)) =
          rest.drop (Lexeme.logicalLine rest) := by
      rw [hparts.eq, Nat.add_assoc 1, Nat.add_assoc 1, Nat.add_comm 1, List.drop_succ_cons]
      simp only [Nat.add_assoc, List.drop_length_add_append]
    refine ⟨σ, _, '#', s, hreached, hafter, by simp, State.next?_of_after hafter, ?_⟩
    show Idle (σ.cursor.after.drop _)
    rwa [step_of_hash hstart, hwidth, hafter, hdrop]

theorem EndsStatement.not_dangles {text : String} (h : EndsStatement settings text) {σ : State}
    (hσ : State.Reaches settings (initial text) σ) : ¬Dangles σ.cursor := by
  rintro ⟨word, gap, hkind, hword, hgap⟩
  obtain ⟨ρ, ρ', last, s, hρ, hlast, hmark, hnext, hidle⟩ := h.exists_next?
  obtain ⟨first, more, hfirst⟩ : ∃ first more, σ.cursor.after = first :: more := by
    obtain ⟨kind, hkind⟩ := Option.isSome_iff_exists.1 hkind
    obtain ⟨⟨first, more, hname, -⟩, -⟩ := name_of_macroKind? hkind
    exact ⟨first, more ++ gap, by rw [hword, hname]; rfl⟩
  obtain ⟨hstarts, hwidth⟩ :=
    width_of_dangling settings σ.cursor σ.body hkind
      (hfirst.symm.trans hword) hgap
  have hplain : isNameStart last = false ∧ isBlank last = false ∧ last ≠ '/' := by
    simp only [List.mem_cons, List.not_mem_nil, or_false] at hmark
    rcases hmark with rfl | rfl | rfl <;> decide
  have hne : σ ≠ ρ := by
    rintro rfl
    obtain ⟨rfl, -⟩ := List.cons.inj (hfirst.symm.trans hlast)
    rw [hplain.1] at hstarts
    cases hstarts
  rcases State.Reaches.total hσ hρ with hbehind | hbefore
  · -- The scan goes over the name to its end, where nothing is left that ends the source.
    obtain heq | ⟨τ, hτ, hbehind⟩ := hbehind.cases_head
    · exact hne heq
    have hafter : τ.cursor.after = gap := by
      obtain ⟨_, _, hcons, rfl⟩ := State.of_next? hτ
      obtain ⟨rfl, rfl⟩ := List.cons.inj (hfirst.symm.trans hcons)
      show σ.cursor.after.drop _ = gap
      rw [hwidth, hword, List.drop_left]
    have hidle' := State.Reaches.idle hbehind (hafter ▸ idle_of_trivia hgap)
    rw [hlast] at hidle'
    rcases hidle'.head with hblank | hslash
    · simp [hplain.2.1] at hblank
    · exact hplain.2.2 hslash
  · obtain heq | ⟨τ, hτ, hbefore⟩ := hbefore.cases_head
    · exact hne heq.symm
    obtain rfl : ρ' = τ := Option.some.inj (hnext.symm.trans hτ)
    have hidle' := State.Reaches.idle hbefore hidle
    rw [hfirst] at hidle'
    rcases hidle'.head with hblank | rfl
    · have hname := isNameChar_of_isNameStart hstarts
      rw [not_isNameChar_of_isBlank hblank] at hname
      cases hname
    · cases hstarts

/-! ## Complete sources -/

/-- A source that more code can follow.  It ends with a line and behind the end of a
statement, leaves no comment and no raw string open, and has no errors. -/
structure Complete (settings : ScanSettings) (text : String) : Prop where
  lineEnded : LineEnded text.toList
  endsStatement : EndsStatement settings text
  closed : ∀ σ, State.Reaches settings (initial text) σ → ¬LeavesOpen σ.cursor
  errors_eq : errorsOf (scan settings text) = []

namespace Complete

variable {text : String} {σ : State}

theorem lineEnded_withoutMark (h : Complete settings text) : LineEnded (withoutMark text) := by
  have hline := h.lineEnded
  unfold withoutMark
  split
  · next s hmark =>
    rw [hmark] at hline
    exact hline.of_ne (by decide)
  · exact hline

theorem lineEnded_after (h : Complete settings text)
    (hσ : State.Reaches settings (initial text) σ) (hne : σ.cursor.after ≠ []) :
    LineEnded σ.cursor.after := by
  have htext : σ.cursor.before.reverse ++ σ.cursor.after = withoutMark text := hσ.text_eq
  exact LineEnded.of_append (htext ▸ h.lineEnded_withoutMark) hne

theorem not_mem_refused (h : Complete settings text)
    (hσ : State.Reaches settings (initial text) σ) (e : ParseError) :
    Finding.refused e ∉ σ.found := by
  intro hmem
  have herrors : e ∈ errorsOf (scan settings text) :=
    List.mem_filterMap.2 ⟨_, hσ.found_subset_scan hmem, rfl⟩
  rw [h.errors_eq] at herrors
  cases herrors

/-- The scan comes to the same states when text is appended. -/
theorem reaches_append (h : Complete settings text)
    (hσ : State.Reaches settings (initial text) σ) (t : List Char) :
    State.Reaches settings ((initial text).append t) (σ.append t) := by
  induction hσ with
  | refl => exact .refl
  | @tail σ τ hσ hnext ih =>
    have hne : σ.cursor.after ≠ [] := by
      obtain ⟨first, s, hafter, -⟩ := State.of_next? hnext
      simp [hafter]
    exact ih.tail (State.next?_append (h.lineEnded_after hσ hne) (h.closed σ hσ)
      (h.endsStatement.not_dangles hσ) hnext (h.not_mem_refused (hσ.tail hnext)) t)

end Complete

/-! ## The scan of the appended text -/

theorem lineBefore_advance {c' : Cursor} (hafter : c'.after = c.after)
    (hline : c'.lineBefore = c.lineBefore) (n : Nat) :
    (c'.advance n).lineBefore = (c.advance n).lineBefore := by
  have hbefore : c'.before.takeWhile (· != '\n') = c.before.takeWhile (· != '\n') := hline
  simp only [Cursor.lineBefore, Cursor.advance, List.reverseAux_eq, hafter]
  rw [List.takeWhile_append, List.takeWhile_append, hbefore]

/-- An error has the text of the line that it is in. -/
theorem moved_of_found {found : Finding} (h : (step settings c body first s).found = some found)
    (lines : Nat) : found.moved lines (String.ofList c.lineText) = found.shifted lines := by
  obtain ⟨kind, name, gap, args, -, -, -, hfound⟩ := exists_of_found h
  rcases invocation_cases hfound with ⟨r, rfl, -⟩ | ⟨e, rfl, -, -, htext⟩
  · rfl
  · rw [Finding.moved, ← htext]
    rfl

/-- From cursors that look alike, on the same line texts, the scans find the same. -/
theorem run_shifted {lines : Nat} {c' : Cursor} {body' : DefineBody}
    (h : Cursor.Alike lines c c') (hline : c'.lineBefore = c.lineBefore)
    (hbody : DefineBody.Agrees c.offset body c'.offset body') :
    run settings c' body' [] = (run settings c body []).map (Finding.shifted lines) := by
  have hfinds : List.Forall₂ (fun found found' => found' = found.shifted lines)
      (run settings c body []) (run settings c' body' []) := by
    refine run_alike (P := fun c c' => c'.lineBefore = c.lineBefore)
      (fun c c' n hafter hline => lineBefore_advance hafter hline n) ?_ [] c' body' .nil h hline
      hbody
    intro c c' body first s found hafter hline hfound
    have htext : c'.lineText = c.lineText := by
      rw [Cursor.lineText, Cursor.lineText, hline, hafter]
    rw [htext]
    exact moved_of_found hfound lines
  rw [← map_eq_of_forall₂ (g := id) hfinds, List.map_id]

theorem run_append_found (found front : List Finding) :
    run settings c body (front ++ found) = found.reverse ++ run settings c body front := by
  fun_induction run settings c body front with
  | case1 c body front hafter => rw [run_of_after_nil hafter, List.reverse_append]
  | case2 c body front first s hafter next _ ih =>
    rw [run_of_after_cons hafter, ← List.append_assoc]
    exact ih

end Scan

open Scan

theorem withoutMark_of_head? {b : String} (h : b.toList.head? ≠ some '\uFEFF') :
    withoutMark b = b.toList := by
  unfold withoutMark
  split
  · next s hb => simp [hb] at h
  · rfl

theorem withoutMark_append_of_head? {b : String} (h : b.toList.head? ≠ some '\uFEFF')
    (a : String) : withoutMark (a ++ b) = withoutMark a ++ b.toList := by
  rw [← String.ofList_toList (s := a ++ b), String.toList_append]
  cases hb : b.toList with
  | nil => rw [List.append_nil, List.append_nil, String.ofList_toList]
  | cons c s =>
    have hc : c ≠ '\uFEFF' := by simpa [hb] using h
    rw [withoutMark_append _ _ hc, String.ofList_toList]

theorem count_withoutMark (a : String) : (withoutMark a).count '\n' = a.toList.count '\n' := by
  unfold withoutMark
  split
  · next s ha => rw [ha, List.count_cons_of_ne (by decide)]
  · rfl

/-- What a complete source gives is not changed by the code behind it, and that code gives
what it does alone, as many lines further down as the source has. -/
theorem scan_append {settings : ScanSettings} {a b : String} (ha : Complete settings a)
    (hb : b.toList.head? ≠ some '\uFEFF') :
    recordsOf (scan settings (a ++ b)) = recordsOf (scan settings a) ++
        (recordsOf (scan settings b)).map (Record.moved (a.toList.count '\n')) ∧
      errorsOf (scan settings (a ++ b)) =
        (errorsOf (scan settings b)).map (ParseError.moved (a.toList.count '\n')) := by
  obtain ⟨σ, hσ, hend⟩ := State.exists_reaches_end settings (initial a)
  have hscan : scan settings a = σ.found.reverse := by
    rw [← State.outcome_initial, hσ.outcome_eq, State.outcome, run_of_after_nil hend]
  have hinitial : (initial a).append b.toList = initial (a ++ b) := by
    rw [initial, initial, withoutMark_append_of_head? hb]
    rfl
  have hbefore : σ.cursor.before.reverse = withoutMark a := by
    have htext := hσ.text_eq
    rw [Cursor.text, hend, List.append_nil] at htext
    exact htext
  obtain ⟨front, hfront⟩ : ∃ front, σ.cursor.before = '\n' :: front := by
    obtain ⟨front, heq, -⟩ := ha.lineEnded_withoutMark
    exact ⟨front.reverse, by rw [← List.reverse_reverse σ.cursor.before, hbefore, heq]; simp⟩
  have hseam : Cursor.Alike (a.toList.count '\n') (.start (withoutMark b))
      (σ.append b.toList).cursor := by
    refine ⟨?_, ?_, ?_, ?_, ?_⟩
    · show σ.cursor.after ++ b.toList = withoutMark b
      rw [hend, withoutMark_of_head? hb]
      rfl
    · show σ.cursor.before.count '\n' + 1 = 0 + 1 + a.toList.count '\n'
      rw [← List.count_reverse, hbefore, count_withoutMark, Nat.zero_add, Nat.add_comm]
    · show (σ.cursor.before.takeWhile (· != '\n')).length + 1 = 1
      rw [hfront]
      rfl
    · intro
      show (σ.cursor.before.takeWhile (· != '\n')).all _ = true
      rw [hfront]
      rfl
    · show σ.cursor.before.takeWhile isNameChar = []
      rw [hfront]
      rfl
  have hline : (σ.append b.toList).cursor.lineBefore = [] := by
    show σ.cursor.before.takeWhile (· != '\n') = []
    rw [hfront]
    rfl
  -- The definition that the first text ends with is over.
  have hbody : DefineBody.Agrees 0 {} (σ.append b.toList).cursor.offset σ.body := by
    have hstop := hσ.stop_le
    rw [← hbefore, List.length_reverse] at hstop
    refine ⟨fun n => ?_, fun hlt => absurd hlt (Nat.not_lt_zero _)⟩
    show 0 + n < 0 ↔ σ.cursor.before.length + n < σ.body.stop
    omega
  have hrest : scan settings (a ++ b) =
      scan settings a ++ (scan settings b).map (Finding.shifted (a.toList.count '\n')) := by
    rw [← State.outcome_initial, ← hinitial, (ha.reaches_append hσ b.toList).outcome_eq,
      State.outcome, hscan]
    show run settings _ _ ([] ++ σ.found) = _
    rw [run_append_found]
    exact congrArg _ (run_shifted hseam hline hbody)
  rw [hrest, recordsOf, errorsOf, List.filterMap_append, List.filterMap_append]
  refine ⟨congrArg _ (recordsOf_shifted _ _), ?_⟩
  rw [show List.filterMap _ (scan settings a) = [] from ha.errors_eq, List.nil_append]
  exact errorsOf_shifted _ _

/-! ### A source in two parts -/

theorem Scan.not_leavesOpen_of_notMem {c : Cursor} (hslash : '/' ∉ c.after) (hhash : '#' ∉ c.after)
    (hraw : 'R' ∉ c.after) : ¬LeavesOpen c := by
  intro h
  cases h with
  | comment => exact hslash List.mem_cons_self
  | rawString hmark =>
    have hall : ∀ mark ∈ Lexeme.rawMarks, 'R' ∈ mark.toList := by decide
    exact hraw (List.mem_append_left _ (hall _ hmark))
  | line _ hafter => exact hhash (by rw [hafter]; exact List.mem_cons_self)

theorem scan_append_sample :
    let settings : ScanSettings := ⟨"a.cpp", ∅⟩
    let front := "FSPGM(t, \"T\");\n"
    let back := "SPGM(t);\nSPGM("
    Complete settings front ∧ back.toList.head? ≠ some '\uFEFF' ∧
      (recordsOf (scan settings (front ++ back))).map (·.location.line) = [1, 2] ∧
      (errorsOf (scan settings (front ++ back))).map (·.location.line) = [3] := by
  intro settings front back
  have hafter : (initial front).cursor.after = 'F' :: front.toList.drop 1 := by decide
  have hmark : EndsStatement settings front :=
    @EndsStatement.mark _ _ _ _ ['\n'] (.single (State.next?_of_after hafter))
      (by decide +kernel) (.inl rfl) (.blank rfl .nil)
  have hcomplete : Complete settings front := by
    have hends : ¬Continues "FSPGM(t, \"T\");".toList := by
      rw [Continues]
      decide
    refine ⟨⟨_, by decide, hends⟩, hmark, fun σ hσ => ?_, by decide +kernel⟩
    have htext : ∀ d, d ∉ front.toList → d ∉ σ.cursor.after := fun d hd hmem => by
      have hfront : front.toList = (initial front).cursor.text := by decide
      rw [hfront, ← hσ.text_eq] at hd
      exact hd (List.mem_append_right _ hmem)
    exact not_leavesOpen_of_notMem (htext _ (by decide)) (htext _ (by decide))
      (htext _ (by decide))
  have hback : back.toList.head? ≠ some '\uFEFF' := by decide
  obtain ⟨hrecords, herrors⟩ := scan_append hcomplete hback
  refine ⟨hcomplete, hback, ?_, ?_⟩
  · rw [hrecords]
    decide +kernel
  · rw [herrors]
    decide +kernel

end FlashStrings
