import FlashStrings.Proofs.Source.Steps

/-!
# Cursors that look alike

A step reads the text behind its cursor.  Of the text before it, it reads the line number
and the column, whether only blanks stand on the line if a directive may follow, and the
name that ends at the cursor.  Two cursors that have these in common (`Cursor.Alike`) make
the same step, up to the line in an error message (`Scan.step_alike`), and they have them in
common behind it (`Cursor.Alike.advance`).  So the scans go on alike (`Scan.run_alike`).
-/

namespace FlashStrings

theorem map_eq_of_forall₂ {α β γ : Type} {f : α → γ} {g : β → γ} {l : List α} {l' : List β}
    (h : List.Forall₂ (fun a b => g b = f a) l l') : l'.map g = l.map f := by
  induction h with
  | nil => rfl
  | cons hab _ ih => rw [List.map_cons, List.map_cons, hab, ih]

/-! ## Cursors -/

/-- A character that may stand before the mark of a directive. -/
def isIndent (c : Char) : Bool := c == ' ' || c == '\t' || c == '\r'

/-- Behind such characters, the text has the mark of a directive. -/
def MarkAhead (s : List Char) : Prop :=
  ∃ blanks rest, s = blanks ++ '#' :: rest ∧ ∀ c ∈ blanks, isIndent c = true

/-- The same text is behind the cursors, and what a step reads of the text before them is
the same, with the second one some lines further down. -/
structure Cursor.Alike (lines : Nat) (c c' : Cursor) : Prop where
  after_eq : c'.after = c.after
  line_eq : c'.line = c.line + lines
  col_eq : c'.col = c.col
  atLineStart_eq : MarkAhead c.after → c'.atLineStart = c.atLineStart
  name_eq : c'.before.takeWhile isNameChar = c.before.takeWhile isNameChar

namespace Cursor

variable {c c' : Cursor} {lines : Nat}

theorem advance_succ (c : Cursor) (width : Nat) :
    c.advance (width + 1) = (c.advance 1).advance width := by
  cases hafter : c.after with
  | nil => simp [advance, hafter]
  | cons d s => simp [advance, hafter]

theorem advance_add (c : Cursor) (m n : Nat) : c.advance (m + n) = (c.advance m).advance n := by
  induction m generalizing c with
  | zero => rw [Nat.zero_add]; rfl
  | succ m ih => rw [Nat.succ_add, advance_succ, ih, advance_succ c m]

theorem advance_append (before s t : List Char) :
    (⟨before, s ++ t⟩ : Cursor).advance s.length = ⟨s.reverse ++ before, t⟩ := by
  rw [advance, List.take_left, List.drop_left, List.reverseAux_eq]

theorem advance_of_le {before s : List Char} {n : Nat} (hn : n ≤ s.length) (t : List Char) :
    (⟨before, s ++ t⟩ : Cursor).advance n = ⟨(s.take n).reverse ++ before, s.drop n ++ t⟩ := by
  rw [advance, List.take_append_of_le_length hn, List.drop_append_of_le_length hn,
    List.reverseAux_eq]

theorem Alike.advance_one (h : Alike lines c c') : Alike lines (c.advance 1) (c'.advance 1) := by
  obtain ⟨before, after⟩ := c
  obtain ⟨before', after'⟩ := c'
  obtain rfl : after' = after := h.after_eq
  cases after' with
  | nil => exact h
  | cons d s =>
    have hline : before'.count '\n' + 1 = before.count '\n' + 1 + lines := h.line_eq
    have hcol : (before'.takeWhile (· != '\n')).length + 1 =
        (before.takeWhile (· != '\n')).length + 1 := h.col_eq
    have hstart : MarkAhead (d :: s) → (before'.takeWhile (· != '\n')).all isIndent =
        (before.takeWhile (· != '\n')).all isIndent := h.atLineStart_eq
    have hname : before'.takeWhile isNameChar = before.takeWhile isNameChar := h.name_eq
    refine ⟨rfl, ?_, ?_, ?_, ?_⟩
    · show (d :: before').count '\n' + 1 = (d :: before).count '\n' + 1 + lines
      rw [List.count_cons, List.count_cons]
      omega
    · show ((d :: before').takeWhile (· != '\n')).length + 1 =
        ((d :: before).takeWhile (· != '\n')).length + 1
      rw [List.takeWhile_cons, List.takeWhile_cons]
      split
      · simpa using hcol
      · rfl
    · rintro ⟨blanks, rest, hs, hblanks⟩
      show ((d :: before').takeWhile (· != '\n')).all isIndent =
        ((d :: before).takeWhile (· != '\n')).all isIndent
      rw [List.takeWhile_cons, List.takeWhile_cons]
      split
      · rw [List.all_cons, List.all_cons]
        cases hd : isIndent d with
        | false => rfl
        | true =>
          have hs' : d :: s = d :: blanks ++ '#' :: rest := congrArg _ hs
          rw [hstart ⟨d :: blanks, rest, hs', List.forall_mem_cons.2 ⟨hd, hblanks⟩⟩]
      · rfl
    · show (d :: before').takeWhile isNameChar = (d :: before).takeWhile isNameChar
      rw [List.takeWhile_cons, List.takeWhile_cons, hname]

theorem Alike.advance (h : Alike lines c c') (width : Nat) :
    Alike lines (c.advance width) (c'.advance width) := by
  induction width generalizing c c' with
  | zero => exact h
  | succ width ih =>
    rw [advance_succ, advance_succ c']
    exact ih h.advance_one

end Cursor

/-! ## Findings -/

/-- A location some lines further down. -/
def Location.moved (lines : Nat) (l : Location) : Location := { l with line := l.line + lines }

/-- A record some lines further down. -/
def Record.moved (lines : Nat) (r : Record) : Record :=
  { r with location := r.location.moved lines }

/-- An error some lines further down. -/
def ParseError.moved (lines : Nat) (e : ParseError) : ParseError :=
  { e with location := e.location.moved lines }

/-- What was found, some lines further down, with a text of the line for an error. -/
def Finding.moved (lines : Nat) (lineText : String) : Finding → Finding
  | .record r => .record (r.moved lines)
  | .refused e => .refused { e.moved lines with lineText }

/-! ## Steps -/

/-- From two offsets on, the bodies of macro definitions go equally far and, where one is
not over yet, have the same parameters. -/
structure DefineBody.Agrees (i : Nat) (body : DefineBody) (i' : Nat) (body' : DefineBody) :
    Prop where
  stop_iff : ∀ n, i + n < body.stop ↔ i' + n < body'.stop
  params_eq : i < body.stop → body'.params = body.params

theorem DefineBody.Agrees.add {i i' : Nat} {body body' : DefineBody} (h : Agrees i body i' body')
    (n : Nat) : Agrees (i + n) body (i' + n) body' where
  stop_iff m := by
    rw [Nat.add_assoc, Nat.add_assoc]
    exact h.stop_iff (n + m)
  params_eq hlt := h.params_eq (by omega)

namespace Scan

variable {settings : ScanSettings} {c c' : Cursor} {body body' : DefineBody} {lines : Nat}

open Cursor DefineBody

theorem location_alike (h : Alike lines c c') :
    location settings c' = (location settings c).moved lines := by
  rw [location, location, h.line_eq, h.col_eq]
  rfl

theorem isDigitSeparator_alike (h : Alike lines c c') :
    isDigitSeparator c' = isDigitSeparator c := by
  rw [isDigitSeparator, isDigitSeparator, h.name_eq]

theorem invocation_alike (h : Alike lines c c') (hbody : Agrees c.offset body c'.offset body')
    (kind : RecordKind) (name : String) (s : List Char) :
    invocation settings c' body' kind name s =
      ((invocation settings c body kind name s).1.map
        (Finding.moved lines (String.ofList c'.lineText)),
        (invocation settings c body kind name s).2) := by
  have hlocation : location settings c' = (location settings c).moved lines := location_alike h
  have hrefuse : ∀ e, invocation.refuse settings c' name e =
      ((invocation.refuse settings c name e).1.map
        (Finding.moved lines (String.ofList c'.lineText)), 0) := fun e => by
    rw [invocation.refuse, invocation.refuse, hlocation]
    rfl
  have hguard : ∀ ps, (decide (c'.offset < body'.stop) && Argument.mentions body'.params [] ps) =
      (decide (c.offset < body.stop) && Argument.mentions body.params [] ps) := fun ps => by
    have hiff : c.offset < body.stop ↔ c'.offset < body'.stop := hbody.stop_iff 0
    by_cases hlt : c.offset < body.stop
    · rw [hbody.params_eq hlt, decide_eq_true hlt, decide_eq_true (hiff.1 hlt)]
    · rw [decide_eq_false hlt, decide_eq_false (mt hiff.2 hlt)]
      rfl
  rw [invocation, invocation]
  cases Argument.extract s with
  | error e => exact hrefuse e
  | ok read =>
    obtain ⟨ps, width⟩ := read
    simp only [hguard]
    split
    · rfl
    · cases readArguments settings kind ps with
      | error e => exact hrefuse e
      | ok read =>
        obtain ⟨identifier, value⟩ := read
        rw [hlocation]
        rfl

/-- The steps are the same, with what they find moved. -/
structure StepsAlike (settings : ScanSettings) (lines : Nat) (c c' : Cursor) (next next' : Step) :
    Prop where
  width_eq : next'.width = next.width
  body_agrees : Agrees (c.offset + next.width) next.body (c'.offset + next.width) next'.body
  found_eq : next'.found = next.found.map (Finding.moved lines (String.ofList c'.lineText))

theorem directive_alike (hbody : Agrees c.offset body c'.offset body') (s : List Char) :
    StepsAlike settings lines c c' (directive c body s) (directive c' body' s) := by
  obtain ⟨blanks, name, gap, defined, rest, hparts⟩ := exists_directiveParts s
  obtain ⟨hwidth, hnext⟩ := hparts.directive_eq c body
  obtain ⟨hwidth', hnext'⟩ := hparts.directive_eq c' body'
  refine ⟨hwidth'.trans hwidth.symm, ?_, ?_⟩
  · generalize (directive c body s).width = width at *
    rw [hnext, hnext']
    split
    · exact ⟨fun n => by simp only; omega, fun _ => rfl⟩
    · exact hbody.add width
  · rw [found_directive, found_directive]
    rfl

theorem name_alike (h : Alike lines c c') (hbody : Agrees c.offset body c'.offset body')
    (first : Char) (s : List Char) :
    StepsAlike settings lines c c' (name settings c body first s)
      (name settings c' body' first s) := by
  simp only [name]
  split
  · exact ⟨rfl, hbody.add _, rfl⟩
  split
  · exact ⟨rfl, hbody.add _, rfl⟩
  split
  · rw [invocation_alike h hbody]
    exact ⟨rfl, hbody.add _, rfl⟩
  · exact ⟨rfl, hbody.add _, rfl⟩

/-- Where cursors look alike, the steps are the same. -/
theorem step_alike (settings : ScanSettings) (h : Alike lines c c')
    (hbody : Agrees c.offset body c'.offset body') {first : Char} {s : List Char}
    (hafter : c.after = first :: s) :
    StepsAlike settings lines c c' (step settings c body first s)
      (step settings c' body' first s) := by
  have hstart : (decide (first = '#') && c'.atLineStart) =
      (decide (first = '#') && c.atLineStart) := by
    by_cases hmark : first = '#'
    · rw [h.atLineStart_eq ⟨[], s, by rw [hafter, hmark]; rfl, fun _ h => by cases h⟩]
    · simp [hmark]
  rw [step, step, isDigitSeparator_alike h, hstart]
  split
  · exact ⟨rfl, hbody.add _, rfl⟩
  split
  · exact directive_alike hbody s
  split
  · exact name_alike h hbody first s
  split
  · exact ⟨rfl, hbody.add _, rfl⟩
  · exact ⟨rfl, hbody.add _, rfl⟩

theorem offset_advance {width : Nat} (hwidth : width ≤ c.after.length) :
    (c.advance width).offset = c.offset + width := by
  simp only [offset, advance, List.reverseAux_eq, List.length_append, List.length_reverse,
    List.length_take, Nat.min_eq_left hwidth]
  exact Nat.add_comm _ _

/-- From cursors that look alike, the scans find the same up to a relation that holds of what
a step finds there.  `P` is what the cursors have in common beyond that. -/
theorem run_alike {P : Cursor → Cursor → Prop} {R : Finding → Finding → Prop}
    (hadvance : ∀ c c' n, c'.after = c.after → P c c' → P (c.advance n) (c'.advance n))
    (hfinds : ∀ c c' body first s found, c'.after = c.after → P c c' →
      (step settings c body first s).found = some found →
      R found (found.moved lines (String.ofList c'.lineText)))
    {found : List Finding} (found' : List Finding) (c' : Cursor) (body' : DefineBody)
    (hfound : List.Forall₂ R found found') (h : Alike lines c c') (hcommon : P c c')
    (hbody : Agrees c.offset body c'.offset body') :
    List.Forall₂ R (run settings c body found) (run settings c' body' found') := by
  fun_induction run settings c body found generalizing c' body' found' with
  | case1 c body found hafter =>
    rw [run_of_after_nil (h.after_eq.trans hafter)]
    exact List.rel_reverse hfound
  | case2 c body found first s hafter next _ ih =>
    obtain ⟨hwidth, hagrees, hsame⟩ := step_alike settings h hbody hafter
    have hle : next.width ≤ (first :: s).length := step_width_le settings c body first s
    rw [run_of_after_cons (h.after_eq.trans hafter), hwidth]
    refine ih _ _ _ ?_ (h.advance next.width) (hadvance c c' next.width h.after_eq hcommon) ?_
    · rw [hsame]
      cases hx : (step settings c body first s).found with
      | none => simpa [next, hx] using hfound
      | some x =>
        have hrelated := hfinds c c' body first s x h.after_eq hcommon hx
        simpa [next, hx] using ⟨hrelated, hfound⟩
    · rw [offset_advance (hafter ▸ hle), offset_advance (h.after_eq.trans hafter ▸ hle)]
      exact hagrees

end Scan

end FlashStrings
