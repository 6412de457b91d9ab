import FlashStrings.Proofs.Source.Directives
import FlashStrings.Proofs.Source.Gaps

/-!
# Boundaries of names

No step of a scan stops inside of a name (`Scan.State.parted_of_next?`): what it takes goes
to the end of the text, ends with a mark, or ends where no name goes on.  What is found
stands at a macro name with white space and comments before the parenthesis
(`Scan.exists_of_found`).
-/

namespace FlashStrings

variable {s t : List Char} {c d : Char} {n : Nat}

/-! ## Parts -/

/-- No name goes on from one part of a text to the next. -/
def Parted (s t : List Char) : Prop :=
  ∀ c d, s.getLast? = some c → t.head? = some d → isNameChar c = true → isNameChar d = false

/-- No name goes on behind what is taken of a text. -/
def CutsNoName (n : Nat) (s : List Char) : Prop := Parted (s.take n) (s.drop n)

theorem parted_of_head (h : ∀ d, t.head? = some d → isNameChar d = false) (s : List Char) :
    Parted s t := fun _ d _ hd _ => h d hd

theorem parted_concat (h : isNameChar c = false) (s t : List Char) : Parted (s ++ [c]) t := by
  intro d e hd he hname
  rw [List.getLast?_concat] at hd
  obtain rfl := Option.some.inj hd
  simp [h] at hname

theorem Parted.append (h : Parted s t) (hs : s ≠ []) (u : List Char) : Parted (u ++ s) t := by
  intro c d hc hd
  refine h c d ?_ hd
  rwa [List.getLast?_append_of_ne_nil u hs] at hc

theorem cutsNoName_append (h : ∀ d, t.head? = some d → isNameChar d = false) (u : List Char) :
    CutsNoName u.length (u ++ t) := by
  rw [CutsNoName, List.drop_left]
  exact parted_of_head h _

/-- What is taken of a text goes to its end or ends with a mark. -/
def Closes (mark : Char) (n : Nat) (s : List Char) : Prop :=
  s.drop n = [] ∨ ∃ front, s.take n = front ++ [mark]

theorem Closes.add {mark : Char} {m : Nat} (h : Closes mark n (s.drop m)) :
    Closes mark (m + n) s := by
  rw [Closes, ← List.drop_drop, List.take_add]
  refine h.imp_right ?_
  rintro ⟨front, hfront⟩
  exact ⟨s.take m ++ front, by rw [hfront, List.append_assoc]⟩

theorem Closes.append {mark : Char} (h : Closes mark n s) (u : List Char) :
    Closes mark (u.length + n) (u ++ s) := .add (by rwa [List.drop_left])

theorem Closes.cons {mark : Char} (h : Closes mark n s) (c : Char) : Closes mark (n + 1) (c :: s) :=
  Nat.add_comm 1 n ▸ h.append [c]

theorem Closes.cutsNoName {mark : Char} (h : Closes mark n s) (hmark : isNameChar mark = false) :
    CutsNoName n s := by
  rcases h with hdrop | ⟨front, hfront⟩
  · rw [CutsNoName, hdrop]
    exact parted_of_head (fun d hd => by simp at hd) _
  · rw [CutsNoName, hfront]
    exact parted_concat hmark _ _

namespace Lexeme

theorem closes_blockComment (s : List Char) : Closes '/' (blockComment s) s := by
  rcases exists_blockComment s with hall | ⟨body, rest, rfl, hlen, -⟩
  · exact .inl (by rw [hall, List.drop_length])
  · rw [hlen]
    exact Closes.append (.inr ⟨['*'], rfl⟩) body

theorem closes_literal? (h : literal? s = some n) : ∃ q, isNameChar q = false ∧ Closes q n s := by
  cases s with
  | nil => cases h
  | cons q s =>
    rw [literal?] at h
    split at h
    · next hq =>
      obtain ⟨⟨body, rest⟩, hbody, rfl⟩ := Option.map_eq_some_iff.1 h
      refine ⟨q, by rcases hq with rfl | rfl <;> rfl, ?_⟩
      rw [quoted?_eq_some hbody]
      exact .cons (.append (.inr ⟨[], rfl⟩) body) q
    · cases h

/-- A lexeme that begins with no name ends where no name goes on. -/
theorem cutsNoName_width (hc : isNameChar c = false) (s : List Char) :
    CutsNoName (width (c :: s)) (c :: s) := by
  rw [width]
  cases hcomment : comment? (c :: s) with
  | some n =>
    rcases comment?_cases hcomment with ⟨t, ht, rfl⟩ | ⟨t, ht, rfl⟩
    · rw [ht]
      exact parted_of_head (fun d hd => head?_lineComment t hd ▸ rfl) _
    · rw [ht]
      exact Closes.cutsNoName (.cons (.cons (closes_blockComment t) _) _) rfl
  | none =>
    cases hliteral : literal? (c :: s) with
    | some n =>
      obtain ⟨q, hq, hcloses⟩ := closes_literal? hliteral
      exact hcloses.cutsNoName hq
    | none => exact parted_concat hc [] s

theorem closes_through {word : List Char} (mark : Char) (s : List Char) :
    Closes mark (through (word ++ [mark]) s) s := by
  induction s with
  | nil => exact .inl rfl
  | cons c s ih =>
    rw [through]
    split
    · next hprefix =>
      obtain ⟨rest, hrest⟩ := List.isPrefixOf_iff_prefix.1 hprefix
      exact .inr ⟨word, by rw [← hrest, List.take_left]⟩
    · exact ih.cons c

/-- Behind the opening quote, a raw string is closed by a quote or not taken. -/
theorem closes_rawString (s : List Char) : Closes '"' (rawString s + 1) ('"' :: s) := by
  have hnone : Closes '"' 1 ('"' :: s) := .inr ⟨[], rfl⟩
  obtain ⟨delimiter, rest, rfl, hdelimiter, -⟩ := exists_takeWhile (· != '(') s
  simp only [rawString, hdelimiter, List.drop_left]
  split
  · exact hnone
  · next c body =>
    split
    · exact hnone
    · have htext : '"' :: (delimiter ++ c :: body) = ('"' :: delimiter ++ [c]) ++ body := by simp
      have hwidth : ∀ n, delimiter.length + 1 + n + 1 = ('"' :: delimiter ++ [c]).length + n :=
        fun n => by simp; omega
      rw [htext, hwidth]
      exact (closes_through '"' body).append _

end Lexeme

/-! ## Steps -/

namespace Scan

variable {settings : ScanSettings}

/-- The arguments of an invocation are closed by a parenthesis. -/
theorem closes_collect {depth width width' : Nat} {found ps : List Piece}
    (h : Argument.collect depth found width s = .ok (ps, width')) :
    ∃ n, width' = width + n ∧ Closes ')' n s := by
  fun_induction Argument.collect depth found width s with
  | case1 => cases h
  | case2 depth found width s ih =>
    obtain ⟨n, rfl, hcloses⟩ := ih h
    exact ⟨n + 1, by omega, hcloses.cons _⟩
  | case3 found width s =>
    obtain ⟨-, rfl⟩ := Prod.mk.inj (Except.ok.inj h)
    exact ⟨1, rfl, .inr ⟨[], rfl⟩⟩
  | case4 found width s depth _ ih =>
    obtain ⟨n, rfl, hcloses⟩ := ih h
    exact ⟨n + 1, by omega, hcloses.cons _⟩
  | case5 depth found width c s hopen hclose hquote body rest hbody _ ih =>
    obtain ⟨n, rfl, hcloses⟩ := ih h
    refine ⟨body.length + (n + 1) + 1, by omega, .cons ?_ c⟩
    rw [quoted?_eq_some hbody]
    exact .append (hcloses.cons c) body
  | case6 => cases h
  | case7 depth found width c s _ _ _ m _ _ ih =>
    obtain ⟨n, rfl, hcloses⟩ := ih h
    exact ⟨m + n, by omega, hcloses.add⟩
  | case8 depth found width c s _ _ _ _ ih =>
    obtain ⟨n, rfl, hcloses⟩ := ih h
    exact ⟨n + 1, by omega, hcloses.cons c⟩

/-- A step at an invocation ends behind a parenthesis. -/
theorem closes_invocation (settings : ScanSettings) (c : Cursor) (body : DefineBody)
    (kind : RecordKind) (name : String) (args : List Char) :
    ∃ mark, isNameChar mark = false ∧
      Closes mark ((invocation settings c body kind name args).2 + 1) ('(' :: args) := by
  have hrefused : ∃ mark, isNameChar mark = false ∧ Closes mark 1 ('(' :: args) :=
    ⟨'(', rfl, .inr ⟨[], rfl⟩⟩
  rw [invocation]
  cases hextract : Argument.extract args with
  | error e => exact hrefused
  | ok read =>
    obtain ⟨ps, width⟩ := read
    obtain ⟨n, rfl, hcloses⟩ := closes_collect hextract
    have hread : ∃ mark, isNameChar mark = false ∧ Closes mark (0 + n + 1) ('(' :: args) :=
      ⟨')', rfl, by rw [Nat.zero_add]; exact hcloses.cons _⟩
    simp only
    split
    · exact hread
    · split
      · exact hrefused
      · exact hread

/-- A step at a directive ends where no name goes on. -/
theorem cutsNoName_directive (c : Cursor) (body : DefineBody) (s : List Char) :
    CutsNoName (directive c body s).width ('#' :: s) := by
  obtain ⟨blanks, name, gap, defined, rest, hparts⟩ := exists_directiveParts s
  have hname := hparts.name_eq
  have hline := hparts.logicalLine_eq
  have hreserved : ∀ d, ((gap ++ (defined ++ rest)).drop
      (Lexeme.logicalLine (gap ++ (defined ++ rest)))).head? = some d → isNameChar d = false :=
    fun d hd => Lexeme.head?_logicalLine _ hd ▸ rfl
  rw [(hparts.directive_eq c body).1]
  obtain rfl := hparts.eq
  rw [List.drop_left] at hname
  have hlen : ('#' :: (blanks ++ name)).length = 1 + blanks.length + name.length := by
    simp
    omega
  have htext : '#' :: (blanks ++ (name ++ (gap ++ (defined ++ rest)))) =
      ('#' :: (blanks ++ name)) ++ (gap ++ (defined ++ rest)) := by simp
  rw [htext, ← hlen]
  generalize '#' :: (blanks ++ name) = front
  cases DirectiveParts.defines name with
  | false => exact cutsNoName_append (fun d => head?_of_takeWhile hname) _
  | true =>
    rw [if_pos rfl]
    cases DirectiveParts.isReserved defined with
    | true =>
      rw [if_pos rfl, ← hline, CutsNoName, List.drop_length_add_append]
      exact parted_of_head hreserved _
    | false =>
      rw [if_neg Bool.false_ne_true, ← List.append_assoc gap, ← List.append_assoc,
        ← List.length_append, ← Nat.add_assoc, ← List.length_append]
      rcases parameterList_cases (rest.take (Lexeme.logicalLine rest)) with
        hnone | ⟨list, back, hlist, hwidth⟩
      · rw [hnone]
        exact cutsNoName_append (fun d => head?_of_takeWhile hparts.defined_eq) _
      · have hrest : rest =
            ('(' :: list) ++ (')' :: (back ++ rest.drop (Lexeme.logicalLine rest))) :=
          calc rest = rest.take (Lexeme.logicalLine rest) ++ rest.drop (Lexeme.logicalLine rest) :=
                (List.take_append_drop _ rest).symm
            _ = _ := by rw [hlist, List.cons_append, List.append_assoc]; rfl
        have hclosed : Closes ')' (('(' :: list).length + 1) rest := by
          rw [hrest]
          exact .append (.inr ⟨[], rfl⟩) _
        rw [hwidth]
        exact (hclosed.append _).cutsNoName rfl

/-- A step at a name ends where no name goes on. -/
theorem cutsNoName_name (c : Cursor) (body : DefineBody) (first : Char) (s : List Char) :
    CutsNoName (name settings c body first s).width (first :: s) := by
  obtain ⟨more, rest, rfl, hmore, -⟩ := exists_takeWhile isNameChar s
  have hend : CutsNoName (1 + more.length) (first :: (more ++ rest)) :=
    Nat.add_comm _ _ ▸ cutsNoName_append (fun d => head?_of_takeWhile hmore) (first :: more)
  simp only [name, hmore, List.drop_left, Bool.and_eq_true, beq_iff_eq]
  split
  · next hraw =>
    obtain ⟨tail, rfl⟩ := List.head?_eq_some_iff.1 hraw.1
    have hclosed := (Lexeme.closes_rawString tail).append (first :: more)
    have hwidth : (first :: more).length + (Lexeme.rawString tail + 1) =
        1 + more.length + 1 + Lexeme.rawString tail := by
      rw [List.length_cons]
      omega
    rw [hwidth] at hclosed
    exact hclosed.cutsNoName rfl
  · split
    · exact hend
    · next kind hkind =>
      split
      · next args hargs =>
        obtain ⟨mark, hmark, hclosed⟩ :=
          closes_invocation settings c body kind (String.ofList (first :: more)) args
        rw [← hargs] at hclosed
        have hclosed := hclosed.add.append (first :: more)
        have hwidth : ∀ taken, (first :: more).length + (Lexeme.trivia rest + (taken + 1)) =
            1 + more.length + Lexeme.trivia rest + 1 + taken := fun taken => by
          rw [List.length_cons]
          omega
        rw [hwidth] at hclosed
        exact hclosed.cutsNoName hmark
      · exact hend

/-- A step ends where no name goes on. -/
theorem cutsNoName_step (settings : ScanSettings) (c : Cursor) (body : DefineBody) (first : Char)
    (s : List Char) :
    CutsNoName (step settings c body first s).width (first :: s) := by
  rw [step]
  split
  · next hquote =>
    obtain rfl : first = '\'' := beq_iff_eq.1 (Bool.and_eq_true_iff.1 hquote).1
    exact parted_concat rfl [] s
  split
  · next hmark =>
    obtain rfl : first = '#' := beq_iff_eq.1 (Bool.and_eq_true_iff.1 hmark).1
    exact cutsNoName_directive c body s
  split
  · exact cutsNoName_name c body first s
  split
  · obtain ⟨more, rest, rfl, hmore, -⟩ := exists_takeWhile isNameChar s
    simp only [hmore]
    exact Nat.add_comm _ _ ▸ cutsNoName_append (fun d => head?_of_takeWhile hmore) (first :: more)
  · next hstart hdigit =>
    refine Lexeme.cutsNoName_width ?_ s
    rw [isNameChar_eq, eq_false_of_ne_true hstart, eq_false_of_ne_true hdigit, Bool.false_or]

/-- No step of a scan stops inside of a name. -/
theorem State.parted_of_next? {σ τ : State} (h : σ.next? settings = some τ) :
    Parted τ.cursor.before.reverse τ.cursor.after := by
  obtain ⟨first, s, hafter, rfl⟩ := of_next? h
  have hcut := cutsNoName_step settings σ.cursor σ.body first s
  obtain ⟨n, hn⟩ := Nat.exists_eq_add_of_lt (step settings σ.cursor σ.body first s).width_pos
  rw [Nat.zero_add] at hn
  show Parted (σ.cursor.advance _).before.reverse (σ.cursor.after.drop _)
  rw [Cursor.reverse_before_advance, hafter]
  refine Parted.append hcut ?_ _
  rw [hn, List.take_succ_cons]
  exact List.cons_ne_nil _ _

/-! ## Findings -/

/-- What is found at a name begins with this name, a gap and a parenthesis. -/
theorem exists_of_found_name {c : Cursor} {body : DefineBody} {first : Char} {s : List Char}
    {found : Finding} (h : (name settings c body first s).found = some found) :
    ∃ kind name gap args, macroKind? name = some kind ∧
      first :: s = name.toList ++ (gap ++ '(' :: args) ∧ Gap gap ∧
      (invocation settings c body kind name args).1 = some found := by
  obtain ⟨more, rest, rfl, hmore, -⟩ := exists_takeWhile isNameChar s
  simp only [name, hmore, List.drop_left] at h
  split at h
  · cases h
  split at h
  · cases h
  next kind hkind =>
  split at h
  · next args hargs =>
    rcases Lexeme.exists_gap rest with hnone | ⟨gap, rest, rfl, hlen, hgap⟩
    · simp [hnone] at hargs
    · rw [hlen, List.drop_left] at hargs
      refine ⟨kind, String.ofList (first :: more), gap, args, hkind, ?_, hgap, h⟩
      rw [String.toList_ofList, hargs]
      rfl
  · cases h

theorem exists_of_found {c : Cursor} {body : DefineBody} {first : Char} {s : List Char}
    {found : Finding} (h : (step settings c body first s).found = some found) :
    ∃ kind name gap args, macroKind? name = some kind ∧
      first :: s = name.toList ++ (gap ++ '(' :: args) ∧ Gap gap ∧
      (invocation settings c body kind name args).1 = some found := by
  rw [step] at h
  split at h
  · cases h
  split at h
  · rw [found_directive] at h
    cases h
  split at h
  · exact exists_of_found_name h
  · split at h <;> cases h

/-- What an invocation gives has the location of its name. -/
theorem invocation_cases {c : Cursor} {body : DefineBody} {kind : RecordKind} {name : String}
    {args : List Char} {found : Finding}
    (h : (invocation settings c body kind name args).1 = some found) :
    (∃ r : Record, found = .record r ∧ r.kind = kind ∧ r.location = location settings c) ∨
      ∃ e : ParseError, found = .refused e ∧ e.macroName = name ∧
        e.location = location settings c ∧ e.lineText = String.ofList c.lineText := by
  have hrefused : ∀ error, (invocation.refuse settings c name error).1 = some found →
      ∃ e : ParseError, found = .refused e ∧ e.macroName = name ∧
        e.location = location settings c ∧ e.lineText = String.ofList c.lineText :=
    fun error h => ⟨_, (Option.some.inj h).symm, rfl, rfl, rfl⟩
  rw [invocation] at h
  split at h
  · exact .inr (hrefused _ h)
  split at h
  · cases h
  split at h
  · exact .inr (hrefused _ h)
  · exact .inl ⟨_, (Option.some.inj h).symm, rfl, rfl⟩

end Scan

end FlashStrings
