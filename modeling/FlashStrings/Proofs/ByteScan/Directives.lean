import FlashStrings.Proofs.ByteScan.Arguments
import FlashStrings.Proofs.Source.Directives

/-!
# Directives by byte offsets

`Matches σ τ` says that a scan by offsets stands where a scan by characters stands: at the
same place, in the same body of a definition, and with the same found.  A step at a
directive leads to states that match again (`Matches.directive?_eq`).
-/

namespace FlashStrings

namespace ByteScan

/-! ## Matching states -/

/-- A scan by offsets stands where a scan by characters stands. -/
structure Matches (σ : State) (τ : Scan.State) : Prop where
  pos : σ.pos = byteSize τ.cursor.before.reverse
  bodyEnd : σ.bodyEnd = byteSize (τ.cursor.text.take τ.body.stop)
  params : σ.params = τ.body.params
  records : σ.records = recordsOf τ.found.reverse
  errors : σ.errors = errorsOf τ.found.reverse

section Matches

variable {settings : ScanSettings} {σ : State} {τ : Scan.State} {s u : List Char}

theorem Matches.at_after (h : Matches σ τ) : At τ.cursor.text σ.pos τ.cursor.after :=
  ⟨τ.cursor.before.reverse, rfl, h.pos.symm⟩

/-- Both scans go on over the same characters. -/
theorem Matches.advance (h : Matches σ τ) (n : Nat) {i : Nat}
    (hi : i = σ.pos + byteSize (τ.cursor.after.take n)) :
    Matches { σ with pos := i } { τ with cursor := τ.cursor.advance n } where
  pos := by rw [Cursor.reverse_before_advance, byteSize_append, hi, h.pos]
  bodyEnd := by rw [Cursor.text_advance, h.bodyEnd]
  params := h.params
  records := h.records
  errors := h.errors

/-- Both scans come into the body of a definition, which ends some characters further on. -/
theorem Matches.enter (h : Matches σ τ) (n : Nat) (params : List (List Char)) {i : Nat}
    (hi : i = σ.pos + byteSize (τ.cursor.after.take n)) :
    Matches { σ with bodyEnd := i, params }
      { τ with body := { stop := τ.cursor.offset + n, params } } where
  pos := h.pos
  bodyEnd := by
    have htake : τ.cursor.text.take (τ.cursor.offset + n) =
        τ.cursor.before.reverse ++ τ.cursor.after.take n := by
      rw [Cursor.text, Cursor.offset, ← List.length_reverse, List.take_length_add_append]
    rw [htake, byteSize_append, hi, h.pos]
  params := rfl
  records := h.records
  errors := h.errors

theorem byteSize_take_append (u s : List Char) (n : Nat) :
    byteSize ((u ++ s).take (u.length + n)) = byteSize u + byteSize (s.take n) := by
  rw [List.take_length_add_append, byteSize_append]

/-- The name at an offset can be taken. -/
theorem At.nameEnd_eq {text : List Char} {i : Nat} (h : At text i (u ++ s))
    (hu : (u ++ s).takeWhile isNameChar = u) : nameEnd (utf8 text) i = i + byteSize u := by
  rw [nameEnd, h.skipWhile_eq fun c => isAscii_of_isNameChar, hu]

theorem At.blanksEnd_eq {text : List Char} {i : Nat} (h : At text i (u ++ s))
    (hu : (u ++ s).takeWhile isLineBlank = u) :
    skipWhile isLineBlank (utf8 text) i = i + byteSize u := by
  rw [h.skipWhile_eq fun c => isAscii_of_isLineBlank, hu]

/-! ## Directives -/

theorem At.parameters?_of_ne {text : List Char} {i : Nat} (h : At text i s)
    (hs : s.head? ≠ some '(') (n : Nat) :
    parameters? text i (i + byteSize (s.take n)) =
      some (i + byteSize (s.take (Scan.parameterList (s.take n)).1),
        (Scan.parameterList (s.take n)).2) := by
  have hnone : Scan.parameterList (s.take n) = (0, []) := by
    refine Scan.parameterList_of_ne fun rest hrest => hs ?_
    have hhead := congrArg List.head? hrest
    rw [List.head?_take] at hhead
    split at hhead
    · cases hhead
    · exact hhead
  rw [parameters?, if_neg fun hc => hs ((h.byteAt?_eq_some_iff rfl).1 hc), hnone]
  rfl

theorem At.parameters?_eq {text : List Char} {i : Nat} (h : At text i s) :
    parameters? text i (i + byteSize (s.take (Lexeme.logicalLine s))) =
      some (i + byteSize (s.take (Scan.parameterList (s.take (Lexeme.logicalLine s))).1),
        (Scan.parameterList (s.take (Lexeme.logicalLine s))).2) := by
  by_cases hs : s.head? = some '('
  · obtain ⟨t, rfl⟩ := List.head?_eq_some_iff.1 hs
    have hline : Lexeme.logicalLine ('(' :: t) = Lexeme.logicalLine t + 1 :=
      (Scan.logicalLine_append (s := ['(']) (by simp) t).trans (Nat.add_comm ..)
    rw [hline, List.take_succ_cons]
    have hslice : slice? text i (i + byteSize ('(' :: t.take (Lexeme.logicalLine t))) =
        some ('(' :: t.take (Lexeme.logicalLine t)) := by
      refine At.slice?_append (s := t.drop (Lexeme.logicalLine t)) ?_
      rwa [List.cons_append, List.take_append_drop]
    rw [parameters?, if_pos (h.byteAt?_of_isAscii rfl), hslice, Option.bind_eq_bind,
      Option.bind_some]
    by_cases hmem : ')' ∈ t.take (Lexeme.logicalLine t)
    · obtain ⟨list, rest, hlist, hmark⟩ := List.eq_append_cons_of_mem hmem
      have ht : t = list ++ (')' :: (rest ++ t.drop (Lexeme.logicalLine t))) := by
        rw [← List.cons_append, ← List.append_assoc, ← hlist, List.take_append_drop]
      have hfind : find? [')'] ('(' :: (list ++ ')' :: rest)) = some (byteSize ('(' :: list)) :=
        find?_append_cons (s := '(' :: list) (by simpa using hmark) rest
      have hinner : slice? text (i + 1) (i + byteSize ('(' :: list)) = some list := by
        rw [byteSize_cons_of_isAscii rfl, Nat.add_comm (byteSize list), ← Nat.add_assoc]
        exact At.slice?_append (ht ▸ h.cons_of_isAscii rfl)
      have htake : ('(' :: t).take (list.length + 2) = '(' :: (list ++ [')']) := by
        rw [ht, List.take_succ_cons, List.take_length_add_append]
        rfl
      rw [hlist, hfind, Scan.parameterList_cons hmark, htake]
      show (slice? text (i + 1) (i + byteSize ('(' :: list))).bind _ = _
      rw [hinner, byteSize_cons_of_isAscii rfl, byteSize_cons_of_isAscii rfl, byteSize_append,
        byteSize_cons_of_isAscii rfl]
      rfl
    · rw [find?_of_notMem (s := '(' :: t.take (Lexeme.logicalLine t)) (by simpa using hmem),
        Scan.parameterList_of_notMem hmem]
      rfl
  · exact h.parameters?_of_ne hs _

theorem Matches.directive?_eq (h : Matches σ τ) (hafter : τ.cursor.after = '#' :: s) :
    ∃ σ', directive? τ.cursor.text σ = some σ' ∧
      Matches σ' ⟨τ.cursor.advance (Scan.directive τ.cursor τ.body s).width,
        (Scan.directive τ.cursor τ.body s).body, τ.found⟩ := by
  obtain ⟨blanks, name, gap, defined, rest, hparts⟩ := Scan.exists_directiveParts s
  obtain ⟨hwidth, hbody⟩ := hparts.directive_eq τ.cursor τ.body
  have hfirst : At τ.cursor.text (σ.pos + 1) s := (hafter ▸ h.at_after).cons_of_isAscii rfl
  have htake : ∀ n, byteSize (τ.cursor.after.take (1 + blanks.length + name.length + n)) =
      1 + byteSize blanks + byteSize name + byteSize ((gap ++ (defined ++ rest)).take n) := by
    intro n
    have hlen : 1 + blanks.length + name.length + n = ('#' :: (blanks ++ name)).length + n := by
      simp
      omega
    have hcons : τ.cursor.after = ('#' :: (blanks ++ name)) ++ (gap ++ (defined ++ rest)) := by
      simpa [hparts.eq] using hafter
    rw [hlen, hcons, byteSize_take_append, byteSize_cons_of_isAscii rfl, byteSize_append]
    omega
  have hrest : ∀ n, byteSize ((gap ++ (defined ++ rest)).take (gap.length + defined.length + n)) =
      byteSize gap + byteSize defined + byteSize (rest.take n) := fun n => by
    rw [Nat.add_assoc, byteSize_take_append, byteSize_take_append, Nat.add_assoc]
  rw [hwidth, hbody]
  have hblanks := hparts.blanks_eq
  have hname := hparts.name_eq
  rw [hparts.eq] at hfirst hblanks hname
  rw [List.drop_left] at hname
  have hsecond := hfirst.append
  have hthird := hsecond.append
  have hfourth := hthird.append
  have hfifth := hfourth.append
  have hlineEnd := hthird.logicalLineEnd_eq
  rw [hparts.logicalLine_eq, hrest, ← Nat.add_assoc, ← Nat.add_assoc] at hlineEnd
  have hreserved : ((macroKind? (String.ofList defined)).isSome ||
      String.ofList defined == autoInitBlock) = Scan.DirectiveParts.isReserved defined := rfl
  simp only [directive?, hfirst.blanksEnd_eq hblanks, hsecond.nameEnd_eq hname,
    hsecond.slice?_append, Option.bind_eq_bind, Option.bind_some, Scan.DirectiveParts.not_defines,
    hlineEnd, hthird.blanksEnd_eq hparts.gap_eq, hfourth.nameEnd_eq hparts.defined_eq,
    hfourth.slice?_append, hreserved, hfifth.parameters?_eq]
  cases Scan.DirectiveParts.defines name with
  | false =>
    refine ⟨_, rfl, h.advance (1 + blanks.length + name.length + 0) ?_⟩
    rw [htake, List.take_zero, byteSize_nil]
    omega
  | true =>
    cases Scan.DirectiveParts.isReserved defined with
    | true =>
      refine ⟨_, rfl, h.advance (1 + blanks.length + name.length +
        (gap.length + defined.length + Lexeme.logicalLine rest)) ?_⟩
      rw [htake, hrest]
      omega
    | false =>
      refine ⟨_, rfl, Matches.advance (h.enter (1 + blanks.length + name.length +
        (gap.length + defined.length + Lexeme.logicalLine rest)) _ ?_)
        (1 + blanks.length + name.length + (gap.length + defined.length + _)) ?_⟩
      · rw [htake, hrest]
        omega
      · show _ = σ.pos + byteSize (τ.cursor.after.take _)
        rw [htake, hrest, if_neg Bool.false_ne_true]
        omega

end Matches

end ByteScan

end FlashStrings
