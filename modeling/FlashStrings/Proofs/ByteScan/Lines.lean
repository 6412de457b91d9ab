import FlashStrings.ByteScan.Scan
import FlashStrings.Proofs.ByteScan.Ends

/-!
# Lines by byte offsets

The offsets where the lines start increase, so the search among them counts those that
are not behind the offset of a cursor (`lineAt_append`).  That gives the location of the
cursor (`location?_eq`) and the text of its line (`lineText?_eq`).
-/

namespace FlashStrings

namespace ByteScan

/-! ## Searching -/

theorem getElem_le_of_pairwise {index : List Nat} (h : index.Pairwise (· < ·)) {i j : Nat}
    (hij : i ≤ j) (hj : j < index.length) : index[i] ≤ index[j] := by
  rcases Nat.lt_or_eq_of_le hij with hlt | rfl
  · exact Nat.le_of_lt (List.pairwise_iff_getElem.1 h i j (by omega) hj hlt)
  · exact Nat.le_refl _

/-- A search ends at the number, or at the place where the greater ones begin. -/
theorem search_cases {index : List Nat} (hsorted : index.Pairwise (· < ·)) {x lo hi : Nat}
    (hhi : hi ≤ index.length) (hle : lo ≤ hi)
    (hlow : ∀ i (h : i < index.length), i < lo → index[i] < x)
    (hhigh : ∀ i (h : i < index.length), hi ≤ i → x < index[i]) :
    (∃ m, ∃ h : m < index.length, search index x lo hi hhi = .ok m ∧ index[m] = x) ∨
      ∃ m, search index x lo hi hhi = .error m ∧ m ≤ index.length ∧
        (∀ i (h : i < index.length), i < m → index[i] < x) ∧
        ∀ i (h : i < index.length), m ≤ i → x < index[i] := by
  fun_induction search index x lo hi hhi with
  | case1 lo hi hhi hlt mid hmid heq => exact .inl ⟨mid, hmid, rfl, heq⟩
  | case2 lo hi hhi hlt mid hmid hne hless ih =>
    refine ih (by omega) (fun i h hi => ?_) hhigh
    have := getElem_le_of_pairwise hsorted (Nat.le_of_lt_succ hi) hmid
    omega
  | case3 lo hi hhi hlt mid hmid hne hless ih =>
    refine ih (by omega) hlow fun i h hi => ?_
    have := getElem_le_of_pairwise hsorted hi h
    omega
  | case4 lo hi hhi hlt =>
    exact .inr ⟨lo, rfl, by omega, hlow, fun i h hi => hhigh i h (by omega)⟩

/-- The line of an offset is the number of lines that start at it or before it. -/
theorem lineAt_append {a b : List Nat} {x : Nat} (hsorted : (a ++ b).Pairwise (· < ·))
    (ha : ∀ y ∈ a, y ≤ x) (hb : ∀ y ∈ b, x < y) : lineAt (a ++ b) x = a.length := by
  have hlow : ∀ i (h : i < (a ++ b).length), i < a.length → (a ++ b)[i] ≤ x := fun i h hi => by
    rw [List.getElem_append_left hi]
    exact ha _ (List.getElem_mem hi)
  have hhigh : ∀ i (h : i < (a ++ b).length), a.length ≤ i → x < (a ++ b)[i] := fun i h hi => by
    rw [List.getElem_append_right hi]
    exact hb _ (List.getElem_mem _)
  have hlen : (a ++ b).length = a.length + b.length := List.length_append
  rw [lineAt]
  rcases search_cases hsorted (Nat.le_refl _) (Nat.zero_le (a ++ b).length)
    (fun i h hi => absurd hi (Nat.not_lt_zero i)) (fun i h hi => absurd h (Nat.not_lt.2 hi))
    with ⟨m, hm, hsearch, heq⟩ | ⟨m, hsearch, hm, hless, hgreater⟩
  · rw [hsearch]
    show m + 1 = a.length
    have hbefore : m < a.length := Nat.lt_of_not_le fun hge => by
      have := hhigh m hm hge
      omega
    refine Nat.le_antisymm hbefore (Nat.le_of_not_lt fun hlt => ?_)
    have hnext : m + 1 < (a ++ b).length := by omega
    have := hlow (m + 1) hnext hlt
    have := List.pairwise_iff_getElem.1 hsorted m (m + 1) hm hnext (Nat.lt_succ_self m)
    omega
  · rw [hsearch]
    show m = a.length
    refine Nat.le_antisymm (Nat.le_of_not_lt fun hlt => ?_) (Nat.le_of_not_lt fun hlt => ?_)
    · have := hless a.length (by omega) hlt
      have := hhigh a.length (by omega) (Nat.le_refl _)
      omega
    · have := hlow m (by omega) hlt
      have := hgreater m (by omega) (Nat.le_refl m)
      omega

/-! ## Starts of lines -/

variable {text s t : List Char} {i k : Nat}

theorem startsFrom_append (k : Nat) (s t : Bytes) :
    startsFrom k (s ++ t) = startsFrom k s ++ startsFrom (k + s.length) t := by
  rw [startsFrom, List.zipIdx_append, List.filterMap_append]
  rfl

theorem startsFrom_utf8_cons (k : Nat) (c : Char) (s : List Char) :
    startsFrom k (utf8 (c :: s)) =
      if c = '\n' then (k + 1) :: startsFrom (k + 1) (utf8 s)
      else startsFrom (k + c.utf8Size) (utf8 s) := by
  rw [utf8_cons, startsFrom_append, String.length_utf8EncodeChar]
  cases hc : isAscii c with
  | true =>
    obtain ⟨b, hb, hbc⟩ := utf8EncodeChar_of_isAscii hc
    rw [hb, utf8Size_of_isAscii hc]
    split
    · next he => simp [startsFrom, hbc, he]
    · next he => simp [startsFrom, hbc, he]
  | false =>
    have hnone : startsFrom k (String.utf8EncodeChar c) = [] := by
      rw [startsFrom, List.filterMap_eq_nil_iff]
      rintro ⟨b, j⟩ hmem
      have hb := isAscii_of_mem_utf8EncodeChar hc (List.fst_mem_of_mem_zipIdx hmem)
      refine if_neg fun he => ?_
      rw [he] at hb
      cases hb
    rw [hnone, if_neg, List.nil_append]
    rintro rfl
    cases hc

/-- The starts of lines behind the newlines of a text lie in the text and increase. -/
theorem pairwise_startsFrom (k : Nat) (s : List Char) :
    (startsFrom k (utf8 s)).Pairwise (· < ·) ∧
      ∀ y ∈ startsFrom k (utf8 s), k < y ∧ y ≤ k + byteSize s := by
  induction s generalizing k with
  | nil => exact ⟨.nil, fun y hy => by cases hy⟩
  | cons c s ih =>
    have hpos := c.utf8Size_pos
    rw [startsFrom_utf8_cons, byteSize_cons]
    split
    · next hc =>
      obtain ⟨hpairwise, hin⟩ := ih (k + 1)
      refine ⟨.cons (fun y hy => (hin y hy).1) hpairwise, fun y hy => ?_⟩
      rcases List.mem_cons.1 hy with rfl | hy
      · omega
      · have := hin y hy
        have : c.utf8Size = 1 := utf8Size_of_isAscii (by rw [hc]; rfl)
        omega
    · obtain ⟨hpairwise, hin⟩ := ih (k + c.utf8Size)
      refine ⟨hpairwise, fun y hy => ?_⟩
      have := hin y hy
      omega

theorem length_startsFrom (k : Nat) (s : List Char) :
    (startsFrom k (utf8 s)).length = s.count '\n' := by
  induction s generalizing k with
  | nil => rfl
  | cons c s ih =>
    rw [startsFrom_utf8_cons, List.count_cons]
    split
    · next hc => simp [hc, ih]
    · next hc => simp [hc, ih]

theorem startsFrom_of_notMem (h : '\n' ∉ s) (k : Nat) : startsFrom k (utf8 s) = [] := by
  refine List.eq_nil_of_length_eq_zero ?_
  rw [length_startsFrom, List.count_eq_zero_of_not_mem h]

/-- The next line starts behind the next newline. -/
theorem head?_startsFrom (h : '\n' ∉ s) (k : Nat) (t : List Char) :
    (startsFrom k (utf8 (s ++ '\n' :: t))).head? = some (k + byteSize s + 1) := by
  rw [utf8_append, startsFrom_append, startsFrom_of_notMem h, startsFrom_utf8_cons, if_pos rfl]
  rfl

/-! ## The line of a cursor -/

/-- The lines that start in a text start there before any other text, too. -/
theorem lineStarts_append (s t : List Char) :
    lineStarts (s ++ t) = lineStarts s ++ startsFrom (byteSize s) (utf8 t) := by
  rw [lineStarts, utf8_append, startsFrom_append, Nat.zero_add]
  rfl

theorem length_lineStarts (s : List Char) : (lineStarts s).length = s.count '\n' + 1 := by
  rw [lineStarts, List.length_cons, length_startsFrom]

theorem pairwise_lineStarts (s : List Char) : (lineStarts s).Pairwise (· < ·) := by
  obtain ⟨hpairwise, hin⟩ := pairwise_startsFrom 0 s
  exact .cons (fun y hy => (hin y hy).1) hpairwise

theorem le_byteSize_of_mem_lineStarts {y : Nat} (h : y ∈ lineStarts s) : y ≤ byteSize s := by
  rcases List.mem_cons.1 h with rfl | h
  · exact Nat.zero_le _
  · simpa using ((pairwise_startsFrom 0 s).2 y h).2

/-- A text ends with a newline or is empty, so that a line starts behind it. -/
def EndsLine (s : List Char) : Prop := s = [] ∨ ∃ t, s = t ++ ['\n']

theorem EndsLine.getElem?_lineStarts (h : EndsLine s) :
    (lineStarts s)[s.count '\n']? = some (byteSize s) := by
  rcases h with rfl | ⟨t, rfl⟩
  · rfl
  · have hcount : (t ++ ['\n']).count '\n' = (lineStarts t).length := by
      rw [length_lineStarts, List.count_append, List.count_singleton_self]
    rw [lineStarts_append, hcount, List.getElem?_append_right (Nat.le_refl _), Nat.sub_self,
      startsFrom_utf8_cons, if_pos rfl, byteSize_append, byteSize_cons_of_isAscii rfl]
    rfl

/-- What stands before a cursor is the lines before and a part of the line. -/
theorem exists_lineBefore (c : Cursor) :
    ∃ front, c.before.reverse = front ++ c.lineBefore.reverse ∧ EndsLine front ∧
      '\n' ∉ c.lineBefore.reverse ∧ c.before.count '\n' = front.count '\n' := by
  have hline : '\n' ∉ c.lineBefore.reverse := fun hmem => by
    have := List.mem_takeWhile_imp (List.mem_reverse.1 hmem)
    simp at this
  have hfront : c.before.reverse =
      (c.before.dropWhile (· != '\n')).reverse ++ c.lineBefore.reverse := by
    rw [← List.reverse_append, Cursor.lineBefore, List.takeWhile_append_dropWhile]
  refine ⟨(c.before.dropWhile (· != '\n')).reverse, hfront, ?_, hline, ?_⟩
  · cases hrest : c.before.dropWhile (· != '\n') with
    | nil => exact .inl rfl
    | cons d rest =>
      have hd := List.head?_dropWhile_not (· != '\n') c.before
      rw [hrest] at hd
      obtain rfl : d = '\n' := by simpa using hd
      exact .inr ⟨rest.reverse, List.reverse_cons⟩
  · rw [← List.count_reverse, hfront, List.count_append, List.count_eq_zero_of_not_mem hline,
      Nat.add_zero]

/-- The index counts the lines up to that of a cursor. -/
theorem lineAt_eq (c : Cursor) :
    lineAt (lineStarts c.text) (byteSize c.before.reverse) = c.line := by
  have hsorted := pairwise_lineStarts c.text
  rw [Cursor.text, lineStarts_append] at hsorted ⊢
  rw [lineAt_append hsorted (fun y => le_byteSize_of_mem_lineStarts)
    (fun y hy => ((pairwise_startsFrom _ _).2 y hy).1), length_lineStarts, List.count_reverse]
  rfl

/-- The index has the offset where the line of a cursor starts. -/
theorem exists_lineStart (c : Cursor) :
    ∃ i, (lineStarts c.text)[c.before.count '\n']? = some i ∧
      At c.text i (c.lineBefore.reverse ++ c.after) ∧
      i + byteSize c.lineBefore.reverse = byteSize c.before.reverse := by
  obtain ⟨front, hfront, hends, -, hcount⟩ := exists_lineBefore c
  have htext : c.text = front ++ (c.lineBefore.reverse ++ c.after) := by
    rw [Cursor.text, hfront, List.append_assoc]
  refine ⟨byteSize front, ?_, ⟨front, htext, rfl⟩, by rw [hfront, byteSize_append]⟩
  rw [htext, lineStarts_append, hcount, List.getElem?_append_left, hends.getElem?_lineStarts]
  rw [length_lineStarts]
  exact Nat.lt_succ_self _

theorem location?_eq (file : String) (c : Cursor) :
    location? file c.text (byteSize c.before.reverse) = some ⟨file, c.line, c.col⟩ := by
  obtain ⟨i, hstart, hat, hsize⟩ := exists_lineStart c
  have hslice := hat.slice?_append
  rw [hsize] at hslice
  rw [location?, lineAt_eq]
  simp only [Cursor.line, pred?, Option.bind_eq_bind, Option.bind_some, hstart, hslice,
    List.length_reverse]
  rfl

/-- The index has the offset where the line behind that of a cursor starts. -/
theorem lineStop?_eq (c : Cursor) : lineStop? c.text c.line =
    some (byteSize c.before.reverse + byteSize (c.after.takeWhile (· != '\n'))) := by
  have hline : (lineStarts c.before.reverse).length = c.line := by
    rw [length_lineStarts, List.count_reverse]
    rfl
  have hnext : (lineStarts c.text)[c.line]? =
      (startsFrom (byteSize c.before.reverse) (utf8 c.after)).head? := by
    rw [Cursor.text, lineStarts_append, List.getElem?_append_right (Nat.le_of_eq hline), hline,
      Nat.sub_self, List.head?_eq_getElem?]
  rw [lineStop?, hnext]
  by_cases hmem : '\n' ∈ c.after
  · obtain ⟨line, rest, hafter, hmark⟩ := List.eq_append_cons_of_mem hmem
    rw [hafter, head?_startsFrom hmark, takeWhile_append_cons (bne_of_notMem hmark) rfl]
    rfl
  · rw [startsFrom_of_notMem hmem, List.takeWhile_eq_self_iff.2 (bne_of_notMem hmem),
      ← byteSize_append]
    rfl

theorem lineText?_eq (c : Cursor) : lineText? c.text c.line = some c.lineText := by
  obtain ⟨i, hstart, hat, hsize⟩ := exists_lineStart c
  have hslice : slice? c.text i
      (byteSize c.before.reverse + byteSize (c.after.takeWhile (· != '\n'))) =
      some (c.lineBefore.reverse ++ c.after.takeWhile (· != '\n')) := by
    rw [← hsize, Nat.add_assoc, ← byteSize_append]
    refine At.slice?_append (s := c.after.dropWhile (· != '\n')) ?_
    rwa [List.append_assoc, List.takeWhile_append_dropWhile]
  rw [lineText?, lineStop?_eq]
  simp only [Cursor.line, pred?, Option.bind_eq_bind, Option.bind_some, hstart, hslice]
  rfl

end ByteScan

end FlashStrings
