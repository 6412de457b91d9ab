import FlashStrings.Proofs.ByteScan.Scan
import FlashStrings.Proofs.Source.Boundaries
import Mathlib.Data.List.Nodup

/-!
# Locations

`Locates` says that a location is that of a macro name, and at which offset the name
stands.  A step of a scan finds at most one record or error, which stands at its cursor
(`found_cases`), and goes on.  So the offsets of what a scan finds increase
(`exists_placed`), and as a location has one offset only (`Locates.offset_eq`), no location
is given twice.
-/

namespace FlashStrings

open ByteScan

/-! ## Places of names -/

/-- In a text a macro name stands behind `lines`, which are whole, and the part `line` of the
line after them.  No name goes on before it or behind it, and only white space and comments
stand before the parenthesis. -/
structure InvokedAt (text lines line : List Char) (name : String) : Prop where
  lines_end : EndsLine lines
  newline_notMem : '\n' ∉ line
  name_chars : ∀ c ∈ name.toList, isNameChar c = true
  before : ∀ c, (lines ++ line).getLast? = some c → isNameChar c = false
  behind : ∃ gap rest, text = lines ++ (line ++ (name.toList ++ (gap ++ '(' :: rest))) ∧ Gap gap ∧
    ∀ c, (gap ++ '(' :: rest).head? = some c → isNameChar c = false

/-- The location is that of the macro name at an offset of the text. -/
def Locates (file : String) (text : List Char) (l : Location) (name : String) (offset : Nat) :
    Prop :=
  ∃ lines line, InvokedAt text lines line name ∧ byteSize (lines ++ line) = offset ∧
    l = ⟨file, lines.count '\n' + 1, line.length + 1⟩

/-- The line of the text with this number, without the newline and the carriage returns at
its end. -/
def IsLine (text : List Char) (number : Nat) (line : List Char) : Prop :=
  ∃ lines n rest, text = lines ++ (line ++ (List.replicate n '\r' ++ rest)) ∧ EndsLine lines ∧
    lines.count '\n' + 1 = number ∧ '\n' ∉ line ∧ line.getLast? ≠ some '\r' ∧
    (rest = [] ∨ ∃ t, rest = '\n' :: t)

variable {settings : ScanSettings} {file : String} {text lines lines' s s' : List Char}
  {l : Location} {name name' : String} {i j : Nat}

/-- Only a newline ends whole lines. -/
theorem ByteScan.EndsLine.eq_nil (h : EndsLine (lines ++ s)) (hs : '\n' ∉ s) : s = [] := by
  rcases List.eq_nil_or_concat s with rfl | ⟨t, c, rfl⟩
  · rfl
  · exfalso
    rcases h with hnil | ⟨u, hu⟩
    · simp at hnil
    · rw [List.concat_eq_append, ← List.append_assoc] at hu
      obtain rfl := (List.append_singleton_inj.1 hu).2
      simp at hs

/-- Whole lines that begin a text are told by their number. -/
theorem lines_eq (hends : EndsLine lines) (hends' : EndsLine lines') (h : lines ++ s = lines' ++ s')
    (hcount : lines.count '\n' = lines'.count '\n') : lines = lines' := by
  rcases List.append_eq_append_iff.1 h with ⟨mid, rfl, -⟩ | ⟨mid, rfl, -⟩
  · rw [List.count_append] at hcount
    rw [hends'.eq_nil (List.count_eq_zero.1 (by omega)), List.append_nil]
  · rw [List.count_append] at hcount
    rw [hends.eq_nil (List.count_eq_zero.1 (by omega)), List.append_nil]

/-- A location has one offset. -/
theorem Locates.offset_eq (h : Locates file text l name i) (h' : Locates file text l name' j) :
    i = j := by
  obtain ⟨lines, line, hinvoked, rfl, rfl⟩ := h
  obtain ⟨lines', line', hinvoked', rfl, heq⟩ := h'
  obtain ⟨gap, rest, htext, -⟩ := hinvoked.behind
  obtain ⟨gap', rest', htext', -⟩ := hinvoked'.behind
  simp only [Location.mk.injEq, Nat.add_right_cancel_iff, true_and] at heq
  have htexts := htext.symm.trans htext'
  obtain rfl := lines_eq hinvoked.lines_end hinvoked'.lines_end htexts heq.1
  obtain rfl := List.append_inj_left (List.append_cancel_left htexts) heq.2
  rfl

/-! ## Places of cursors -/

/-- Where an invocation stands at a cursor, and no name is cut, the location is that of the
name. -/
theorem locates_location (settings : ScanSettings) {c : Cursor} {kind : RecordKind}
    {gap args : List Char} (hkind : macroKind? name = some kind)
    (hafter : c.after = name.toList ++ (gap ++ '(' :: args)) (hgap : Gap gap)
    (hparted : Parted c.before.reverse c.after) :
    Locates settings.file c.text (Scan.location settings c) name (byteSize c.before.reverse) := by
  obtain ⟨lines, hlines, hends, hline, hcount⟩ := exists_lineBefore c
  obtain ⟨⟨first, more, hname, hfirst⟩, hchars, -⟩ := Scan.name_of_macroKind? hkind
  refine ⟨lines, c.lineBefore.reverse, ?_, by rw [hlines], ?_⟩
  · exact {
      lines_end := hends
      newline_notMem := hline
      name_chars := List.all_eq_true.1 hchars
      before := fun d hd => eq_false_of_ne_true fun htrue => by
        have hhead : c.after.head? = some first := by rw [hafter, hname]; rfl
        have hcut := hparted d first (hlines ▸ hd) hhead htrue
        rw [isNameChar_of_isNameStart hfirst] at hcut
        cases hcut
      behind := ⟨gap, args, by rw [Cursor.text, hlines, hafter, List.append_assoc], hgap,
        fun d => hgap.head args⟩ }
  · rw [Scan.location, Cursor.line, Cursor.col, hcount, List.length_reverse]

/-- The text of the line of a cursor. -/
theorem isLine_lineText (c : Cursor) : IsLine c.text c.line c.lineText := by
  obtain ⟨lines, hlines, hends, hline, hcount⟩ := exists_lineBefore c
  obtain ⟨more, after, hafter, hmore, hnewline⟩ := exists_takeWhile (· != '\n') c.after
  obtain ⟨returns, line, hfull, htake, hreturns⟩ :=
    exists_takeWhile (· == '\r') (c.lineBefore.reverse ++ more).reverse
  have hparts : c.lineBefore.reverse ++ more = line.reverse ++ returns.reverse := by
    rw [← List.reverse_append, ← hfull, List.reverse_reverse]
  have hreplicate : returns.reverse = List.replicate returns.length '\r' :=
    List.eq_replicate_iff.2 ⟨List.length_reverse, fun b hb =>
      beq_iff_eq.1 (hreturns b (List.mem_reverse.1 hb))⟩
  have hdrop : (returns ++ line).dropWhile (· == '\r') = line := by
    have happend := List.takeWhile_append_dropWhile (p := (· == '\r')) (l := returns ++ line)
    rw [htake] at happend
    exact List.append_cancel_left happend
  have htext : c.lineText = line.reverse := by
    rw [Cursor.lineText, hafter, hmore, hfull, hdrop]
  have hnotMem : '\n' ∉ c.lineBefore.reverse ++ more := by
    rw [List.mem_append, not_or]
    exact ⟨hline, fun h => by simpa using hnewline _ h⟩
  rw [htext]
  refine ⟨lines, returns.length, after, ?_, hends, by rw [Cursor.line, hcount], ?_, ?_, ?_⟩
  · rw [← hreplicate, Cursor.text, hlines, hafter, List.append_assoc, ← List.append_assoc _ more,
      hparts, List.append_assoc]
  · rw [hparts] at hnotMem
    exact fun h => hnotMem (List.mem_append_left _ h)
  · rw [List.getLast?_reverse]
    intro hreturn
    simpa using head?_of_takeWhile htake hreturn
  · cases after with
    | nil => exact .inl rfl
    | cons d after =>
      have hd := head?_of_takeWhile hmore rfl
      exact .inr ⟨after, by simpa using hd⟩

/-! ## Places of findings -/

/-- The record is located at a macro name of its kind, which stands at the offset. -/
def RecordAt (file : String) (text : List Char) (r : Record) (offset : Nat) : Prop :=
  ∃ name ∈ r.kind.macroNames, Locates file text r.location name offset

/-- The error is located at the macro name that it gives, which stands at the offset, and it
has the text of the line. -/
structure ErrorAt (file : String) (text : List Char) (e : ParseError) (offset : Nat) : Prop where
  mem_macroNames : ∃ kind : RecordKind, e.macroName ∈ kind.macroNames
  locates : Locates file text e.location e.macroName offset
  isLine : IsLine text e.location.line e.lineText.toList

/-- The records and the errors stand at these offsets of the text: those of each increase,
and no offset has a record and an error. -/
structure Placed (file : String) (text : List Char) (records : List Record)
    (errors : List ParseError) (recordOffsets errorOffsets : List Nat) : Prop where
  records : List.Forall₂ (RecordAt file text) records recordOffsets
  errors : List.Forall₂ (ErrorAt file text) errors errorOffsets
  recordOffsets_lt : recordOffsets.Pairwise (· < ·)
  errorOffsets_lt : errorOffsets.Pairwise (· < ·)
  disjoint : recordOffsets.Disjoint errorOffsets

namespace Placed

variable {records : List Record} {errors : List ParseError} {recordOffsets errorOffsets : List Nat}

theorem nil (file : String) (text : List Char) : Placed file text [] [] [] [] where
  records := .nil
  errors := .nil
  recordOffsets_lt := .nil
  errorOffsets_lt := .nil
  disjoint := List.disjoint_nil_left _

theorem record (h : Placed file text records errors recordOffsets errorOffsets) {r : Record}
    (hr : RecordAt file text r i) (hlt : ∀ j ∈ recordOffsets ++ errorOffsets, i < j) :
    Placed file text (r :: records) errors (i :: recordOffsets) errorOffsets where
  records := .cons hr h.records
  errors := h.errors
  recordOffsets_lt := .cons (fun j hj => hlt j (List.mem_append_left _ hj)) h.recordOffsets_lt
  errorOffsets_lt := h.errorOffsets_lt
  disjoint := List.disjoint_cons_left.2
    ⟨fun hmem => Nat.lt_irrefl i (hlt i (List.mem_append_right _ hmem)), h.disjoint⟩

theorem refused (h : Placed file text records errors recordOffsets errorOffsets) {e : ParseError}
    (he : ErrorAt file text e i) (hlt : ∀ j ∈ recordOffsets ++ errorOffsets, i < j) :
    Placed file text records (e :: errors) recordOffsets (i :: errorOffsets) where
  records := h.records
  errors := .cons he h.errors
  recordOffsets_lt := h.recordOffsets_lt
  errorOffsets_lt := .cons (fun j hj => hlt j (List.mem_append_right _ hj)) h.errorOffsets_lt
  disjoint := List.disjoint_cons_right.2
    ⟨fun hmem => Nat.lt_irrefl i (hlt i (List.mem_append_left _ hmem)), h.disjoint⟩

end Placed

/-- What a step finds stands at the cursor. -/
theorem found_cases {c : Cursor} {body : DefineBody} {first : Char} {rest : List Char}
    (hafter : c.after = first :: rest) (hparted : Parted c.before.reverse c.after)
    {found : Finding} (h : (Scan.step settings c body first rest).found = some found) :
    (∃ r, found = .record r ∧ RecordAt settings.file c.text r (byteSize c.before.reverse)) ∨
      ∃ e, found = .refused e ∧ ErrorAt settings.file c.text e (byteSize c.before.reverse) := by
  obtain ⟨kind, name, gap, args, hkind, htext, hgap, hinvocation⟩ := Scan.exists_of_found h
  have hlocates := locates_location settings hkind (hafter.trans htext) hgap hparted
  have hname := Scan.mem_macroNames hkind
  rcases Scan.invocation_cases hinvocation with
    ⟨r, rfl, rfl, hlocation⟩ | ⟨e, rfl, rfl, hlocation, hline⟩
  · exact .inl ⟨r, rfl, name, hname, hlocation ▸ hlocates⟩
  · refine .inr ⟨e, rfl, ⟨kind, hname⟩, hlocation ▸ hlocates, ?_⟩
    rw [hlocation, hline, String.toList_ofList]
    exact isLine_lineText c

theorem byteSize_before_lt {c : Cursor} {first : Char} {rest : List Char}
    (hafter : c.after = first :: rest) {n : Nat} (hn : 0 < n) :
    byteSize c.before.reverse < byteSize (c.advance n).before.reverse := by
  obtain ⟨n, rfl⟩ := Nat.exists_eq_add_of_lt hn
  rw [Cursor.reverse_before_advance, byteSize_append, hafter, Nat.zero_add, List.take_succ_cons]
  exact Nat.lt_add_of_pos_right (byteSize_pos (List.cons_ne_nil _ _))

/-- What a scan finds from a cursor on, where it cuts no name, stands at the cursor or
behind it. -/
theorem exists_placed (settings : ScanSettings) {c : Cursor} (body : DefineBody)
    (found : List Finding) (hparted : Parted c.before.reverse c.after) :
    ∃ new recordOffsets errorOffsets,
      Scan.run settings c body found = found.reverse ++ new ∧
      Placed settings.file c.text (recordsOf new) (errorsOf new) recordOffsets errorOffsets ∧
      ∀ j ∈ recordOffsets ++ errorOffsets, byteSize c.before.reverse ≤ j := by
  fun_induction Scan.run settings c body found with
  | case1 c body found hnil =>
    exact ⟨[], [], [], (List.append_nil _).symm, .nil _ _, fun j hj => by cases hj⟩
  | case2 c body found first s hafter next hlt ih =>
    have hnext : (⟨c, body, found⟩ : Scan.State).next? settings = some _ :=
      Scan.State.next?_of_after hafter
    obtain ⟨new, recordOffsets, errorOffsets, hrun, hplaced, hle⟩ :=
      ih (Scan.State.parted_of_next? hnext)
    have hpos := byteSize_before_lt hafter next.width_pos
    have hbehind : ∀ j ∈ recordOffsets ++ errorOffsets, byteSize c.before.reverse < j :=
      fun j hj => Nat.lt_of_lt_of_le hpos (hle j hj)
    rw [Cursor.text_advance] at hplaced
    rw [hrun]
    cases hfound : next.found with
    | none =>
      exact ⟨new, recordOffsets, errorOffsets, rfl, hplaced,
        fun j hj => Nat.le_of_lt (hbehind j hj)⟩
    | some x =>
      have happend : (some x).toList ++ found = x :: found := rfl
      rw [happend, List.reverse_cons, List.append_assoc]
      rcases found_cases hafter hparted hfound with ⟨r, rfl, hr⟩ | ⟨e, rfl, he⟩
      · refine ⟨.record r :: new, _, _, rfl, hplaced.record hr hbehind, fun j hj => ?_⟩
        rcases List.mem_cons.1 hj with rfl | hj
        · exact Nat.le_refl _
        · exact Nat.le_of_lt (hbehind j hj)
      · refine ⟨.refused e :: new, _, _, rfl, hplaced.refused he hbehind, fun j hj => ?_⟩
        rcases List.mem_append.1 hj with hj | hj
        · exact Nat.le_of_lt (hbehind j (List.mem_append_left _ hj))
        rcases List.mem_cons.1 hj with rfl | hj
        · exact Nat.le_refl _
        · exact Nat.le_of_lt (hbehind j (List.mem_append_right _ hj))

/-! ## Locations once -/

/-- Members with one partner each are different if these are. -/
theorem nodup_of_forall₂ {α β : Type} {R : α → β → Prop} {l : List α} {bs : List β}
    (h : List.Forall₂ R l bs) (hunique : ∀ a b b', R a b → R a b' → b = b') (hbs : bs.Nodup) :
    l.Nodup := by
  induction h with
  | nil => exact .nil
  | @cons a b l bs hab hl ih =>
    obtain ⟨hb, hbs⟩ := List.nodup_cons.1 hbs
    refine List.nodup_cons.2 ⟨fun ha => ?_, ih hbs⟩
    obtain ⟨b', hb', hab'⟩ := exists_mem_of_forall₂ hl ha
    exact hb (hunique a b b' hab hab' ▸ hb')

/-- No location is given twice. -/
theorem Placed.nodup_locations {records : List Record} {errors : List ParseError}
    {recordOffsets errorOffsets : List Nat}
    (h : Placed file text records errors recordOffsets errorOffsets) :
    (records.map (·.location) ++ errors.map (·.location)).Nodup := by
  let R := fun l i => ∃ name, Locates file text l name i
  have hrecords : List.Forall₂ R (records.map (·.location)) recordOffsets :=
    List.forall₂_map_left_iff.2 (h.records.imp fun r i ⟨name, _, hname⟩ => ⟨name, hname⟩)
  have herrors : List.Forall₂ R (errors.map (·.location)) errorOffsets :=
    List.forall₂_map_left_iff.2 (h.errors.imp fun e i he => ⟨e.macroName, he.locates⟩)
  refine nodup_of_forall₂ (List.rel_append hrecords herrors) ?_ ?_
  · rintro l i j ⟨name, hi⟩ ⟨name', hj⟩
    exact hi.offset_eq hj
  · exact List.nodup_append'.2 ⟨h.recordOffsets_lt.imp Nat.ne_of_lt,
      h.errorOffsets_lt.imp Nat.ne_of_lt, h.disjoint⟩

/-- Each record and each error of a scan is located at a macro name of its own: the offsets
of these names increase, and no location is given twice. -/
theorem byteScan_locations (settings : ScanSettings) (text : String) :
    ∃ records errors recordOffsets errorOffsets,
      byteScan settings text = some (records, errors) ∧
      Placed settings.file (withoutMark text) records errors recordOffsets errorOffsets ∧
      (records.map (·.location) ++ errors.map (·.location)).Nodup := by
  obtain ⟨new, recordOffsets, errorOffsets, hrun, hplaced, -⟩ :=
    exists_placed settings (c := .start (withoutMark text)) {} [] (fun _ _ h => by cases h)
  have hscan : scan settings text = new := hrun
  subst hscan
  exact ⟨_, _, recordOffsets, errorOffsets, byteScan_eq settings text, hplaced,
    hplaced.nodup_locations⟩

end FlashStrings
