import FlashStrings.Proofs.Source.Forwarding

/-!
# Directives

A directive in parts (`DirectiveParts`).  What its step takes is told by these
(`DirectiveParts.directive_eq`): the name of the directive, and behind a defining one the
whole line of a string macro, or the defined name with its parameter list.
-/

namespace FlashStrings

namespace Scan

variable {s list line rest : List Char}

theorem notMem_of_isLineBlank {c : Char} (h : isLineBlank c = true) :
    c ∉ ['\\', '\n', '"', '\'', '/'] := by
  simp only [isLineBlank, Bool.or_eq_true, beq_iff_eq] at h
  rcases h with rfl | rfl <;> decide

theorem notMem_of_isNameChar {c : Char} (h : isNameChar c = true) :
    c ∉ ['\\', '\n', '"', '\'', '/'] := by
  intro hmem
  simp only [List.mem_cons, List.not_mem_nil, or_false] at hmem
  rcases hmem with rfl | rfl | rfl | rfl | rfl <;> cases h

/-- The width of a parameter list at the start of the rest of a line, and the
parameters. -/
def parameterList : List Char → Nat × List (List Char)
  | '(' :: line =>
    let list := line.takeWhile (· != ')')
    if list.length < line.length then (list.length + 2, params list) else (0, [])
  | _ => (0, [])

theorem parameterList_of_ne {line : List Char} (h : ∀ rest, line = '(' :: rest → False) :
    parameterList line = (0, []) := by
  unfold parameterList
  split
  · next rest => exact absurd rfl (h rest)
  · rfl

theorem parameterList_cons (h : ')' ∉ list) (rest : List Char) :
    parameterList ('(' :: (list ++ ')' :: rest)) = (list.length + 2, params list) := by
  have hlist : (list ++ ')' :: rest).takeWhile (· != ')') = list :=
    takeWhile_append_cons (bne_of_notMem h) rfl rest
  simp only [parameterList, hlist]
  exact if_pos (by simp)

theorem parameterList_of_notMem (h : ')' ∉ line) : parameterList ('(' :: line) = (0, []) := by
  have hlist : line.takeWhile (· != ')') = line :=
    List.takeWhile_eq_self_iff.2 (bne_of_notMem h)
  simp only [parameterList, hlist, Nat.lt_irrefl, if_false]

/-- A list that is closed, or does not begin, is the same when text is appended that opens
none. -/
theorem parameterList_append (hlist : ∀ list, rest = '(' :: list → ')' ∈ list) {d : Char}
    (hd : d ≠ '(') (t : List Char) : parameterList (rest ++ d :: t) = parameterList rest := by
  cases rest with
  | nil => exact parameterList_of_ne fun list hcons => hd (List.cons.inj hcons).1
  | cons c rest =>
    by_cases hc : c = '('
    · obtain ⟨list, rest, rfl, hclosed⟩ := List.eq_append_cons_of_mem (hlist rest (by rw [hc]))
      rw [hc, List.cons_append, List.append_assoc, List.cons_append, parameterList_cons hclosed,
        parameterList_cons hclosed]
    · rw [List.cons_append, parameterList_of_ne fun list hcons => hc (List.cons.inj hcons).1,
        parameterList_of_ne fun list hcons => hc (List.cons.inj hcons).1]

theorem parameterList_take {n : Nat} (hn : n ≠ rest.length)
    (hlist : ∀ list, rest = '(' :: list → ')' ∈ list) {d : Char} (hd : d ≠ '(') (t : List Char) :
    parameterList ((rest ++ d :: t).take n) = parameterList (rest.take n) := by
  rcases Nat.lt_or_gt_of_ne hn with hlt | hlt
  · rw [List.take_append_of_le_length (Nat.le_of_lt hlt)]
  · obtain ⟨m, rfl⟩ := Nat.exists_eq_add_of_lt hlt
    rw [Nat.add_assoc, List.take_length_add_append, List.take_succ_cons,
      parameterList_append hlist hd, List.take_of_length_le (Nat.le_add_right _ _)]

theorem parameterList_cases (line : List Char) :
    (parameterList line).1 = 0 ∨ ∃ list rest, line = '(' :: (list ++ ')' :: rest) ∧
      (parameterList line).1 = list.length + 2 := by
  by_cases h : ∃ rest, line = '(' :: rest
  · obtain ⟨line, rfl⟩ := h
    by_cases hmem : ')' ∈ line
    · obtain ⟨list, rest, rfl, hlist⟩ := List.eq_append_cons_of_mem hmem
      exact .inr ⟨list, rest, rfl, by rw [parameterList_cons hlist]⟩
    · exact .inl (by rw [parameterList_of_notMem hmem])
  · exact .inl (by rw [parameterList_of_ne fun rest hrest => h ⟨rest, hrest⟩])

/-- A directive in parts: the blanks behind the mark, its name, the blanks behind that,
the name that it defines, and the rest. -/
structure DirectiveParts (s blanks name gap defined rest : List Char) : Prop where
  eq : s = blanks ++ (name ++ (gap ++ (defined ++ rest)))
  blanks_eq : s.takeWhile isLineBlank = blanks
  name_eq : (s.drop blanks.length).takeWhile isNameChar = name
  gap_eq : (gap ++ (defined ++ rest)).takeWhile isLineBlank = gap
  defined_eq : (defined ++ rest).takeWhile isNameChar = defined
  gap_blank : ∀ c ∈ gap, isLineBlank c = true
  defined_name : ∀ c ∈ defined, isNameChar c = true

theorem exists_directiveParts (s : List Char) :
    ∃ blanks name gap defined rest, DirectiveParts s blanks name gap defined rest := by
  obtain ⟨blanks, s, rfl, hblanks, -⟩ := exists_takeWhile isLineBlank s
  obtain ⟨name, s, rfl, hname, -⟩ := exists_takeWhile isNameChar s
  obtain ⟨gap, s, rfl, hgap, hgap'⟩ := exists_takeWhile isLineBlank s
  obtain ⟨defined, s, rfl, hdefined, hdefined'⟩ := exists_takeWhile isNameChar s
  exact ⟨blanks, name, gap, defined, s, rfl, hblanks, by rwa [List.drop_left], hgap, hdefined,
    hgap', hdefined'⟩

namespace DirectiveParts

variable {blanks name gap defined rest : List Char} {c : Cursor} {body : DefineBody}

/-- Whether the directive is one that defines or undefines a name. -/
def defines (name : List Char) : Bool := name == "define".toList || name == "undef".toList

theorem not_defines (name : List Char) :
    (name != "define".toList && name != "undef".toList) = !defines name := by
  rw [defines, Bool.not_or]
  rfl

/-- Whether a name is that of a string macro or of the macro around a block. -/
def isReserved (defined : List Char) : Bool :=
  (macroKind? (String.ofList defined)).isSome || String.ofList defined == autoInitBlock

/-- What stands behind the elements that satisfy a predicate goes on behind them. -/
theorem takeWhile_append_append {α : Type} {p : α → Bool} {u t v : List α}
    (h : (u ++ t).takeWhile p = u) (ht : t = [] → ∀ a, v.head? = some a → p a = false) :
    (u ++ (t ++ v)).takeWhile p = u := by
  have hu : ∀ a ∈ u, p a = true := fun a ha => List.mem_takeWhile_imp (h ▸ ha)
  have hhead : ∀ a, (t ++ v).head? = some a → p a = false := by
    cases t with
    | nil => exact ht rfl
    | cons b t => exact fun a ha => head?_of_takeWhile h ha
  rw [List.takeWhile_append_of_pos hu]
  cases hrest : t ++ v with
  | nil => simp
  | cons a rest =>
    rw [List.takeWhile_cons_of_neg (by simp [hhead a (by rw [hrest]; rfl)]), List.append_nil]

/-- The parts are the same when text is appended that does not continue the last one. -/
theorem append (h : DirectiveParts s blanks name gap defined rest) (hne : defined ++ rest ≠ [])
    (t : List Char) (ht : rest = [] → ∀ d, t.head? = some d → isNameChar d = false) :
    DirectiveParts (s ++ t) blanks name gap defined (rest ++ t) := by
  have hblanks := h.blanks_eq
  have hname := h.name_eq
  obtain rfl := h.eq
  rw [List.drop_left] at hname
  have hfilled : gap ++ (defined ++ rest) ≠ [] := fun hnil =>
    hne (List.append_eq_nil_iff.1 hnil).2
  refine ⟨by simp only [List.append_assoc], ?_, ?_, ?_, ?_, h.gap_blank, h.defined_name⟩
  · rw [List.append_assoc]
    exact takeWhile_append_append hblanks fun hnil =>
      absurd (List.append_eq_nil_iff.1 hnil).2 hfilled
  · rw [List.append_assoc, List.drop_left, List.append_assoc]
    exact takeWhile_append_append hname fun hnil => absurd hnil hfilled
  · rw [← List.append_assoc defined]
    exact takeWhile_append_append h.gap_eq fun hnil => absurd hnil hne
  · exact takeWhile_append_append h.defined_eq ht

theorem logicalLine_eq (h : DirectiveParts s blanks name gap defined rest) :
    Lexeme.logicalLine (gap ++ (defined ++ rest)) =
      gap.length + defined.length + Lexeme.logicalLine rest := by
  rw [logicalLine_append fun c hc => notMem_of_isLineBlank (h.gap_blank c hc),
    logicalLine_append fun c hc => notMem_of_isNameChar (h.defined_name c hc), Nat.add_assoc]

theorem directive_eq (h : DirectiveParts s blanks name gap defined rest) (c : Cursor)
    (body : DefineBody) :
    (directive c body s).width = 1 + blanks.length + name.length +
        (if defines name then
          gap.length + defined.length +
            (if isReserved defined then Lexeme.logicalLine rest
            else (parameterList (rest.take (Lexeme.logicalLine rest))).1)
        else 0) ∧
      (directive c body s).body =
        if defines name ∧ isReserved defined = false then
          { stop := c.offset + (1 + blanks.length + name.length + (gap.length + defined.length +
              Lexeme.logicalLine rest))
            params := (parameterList (rest.take (Lexeme.logicalLine rest))).2 }
        else body := by
  have hblanks := h.blanks_eq
  have hname := h.name_eq
  have hline := h.logicalLine_eq
  have hdrop : ((gap ++ (defined ++ rest)).take
      (gap.length + defined.length + Lexeme.logicalLine rest)).drop (gap.length + defined.length) =
        rest.take (Lexeme.logicalLine rest) := by
    rw [Nat.add_assoc, List.take_length_add_append, List.take_length_add_append, ← List.drop_drop,
      List.drop_left, List.drop_left]
  obtain rfl := h.eq
  rw [List.drop_left] at hname
  have hreserved : ((macroKind? (String.ofList defined)).isSome ||
      String.ofList defined == autoInitBlock) = isReserved defined := rfl
  simp only [directive, hblanks, List.drop_left, hname, hline, h.gap_eq, h.defined_eq, hdrop,
    not_defines, hreserved]
  cases defines name with
  | false => exact ⟨rfl, rfl⟩
  | true =>
    cases isReserved defined with
    | true =>
      refine ⟨?_, rfl⟩
      simp
    | false =>
      rw [Nat.add_assoc c.offset]
      generalize rest.take (Lexeme.logicalLine rest) = line
      simp only [Bool.not_true, Bool.false_eq_true, if_false, if_true, and_self]
      split
      · next line =>
        simp only [parameterList]
        split
        · exact ⟨by simp only; omega, rfl⟩
        · exact ⟨rfl, rfl⟩
      · next hne =>
        rw [parameterList_of_ne hne]
        exact ⟨rfl, rfl⟩

end DirectiveParts

end Scan

end FlashStrings
