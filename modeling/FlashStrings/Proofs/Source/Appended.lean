import FlashStrings.Proofs.Source.Gaps

/-!
# Lexemes before appended text

A text that ends with a line (`LineEnded`) tells where its lexemes end: what is appended to
it changes no lexeme that is closed, and makes no literal closed that was not.  Left open
are a block comment or a raw string without its closing mark and a line of a directive with
such a comment (`Lexeme.LeavesComment`).
-/

namespace FlashStrings

/-- The text ends with a newline that does not continue its line. -/
def LineEnded (s : List Char) : Prop := ∃ front, s = front ++ ['\n'] ∧ ¬Continues front

variable {s t u : List Char} {c q : Char} {n : Nat}

theorem takeWhile_append_of_neg {p : Char → Bool} (hc : p c = false) (s t : List Char) :
    (s ++ c :: t).takeWhile p = s.takeWhile p := by
  rw [List.takeWhile_append]
  split
  · next hlength =>
    rw [List.takeWhile_cons_of_neg (by simp [hc]), List.append_nil,
      (List.takeWhile_prefix p).eq_of_length hlength]
  · rfl

namespace LineEnded

theorem ne_nil (h : LineEnded s) : s ≠ [] := by
  obtain ⟨front, rfl, -⟩ := h
  simp

theorem of_append (h : LineEnded (u ++ s)) (hs : s ≠ []) : LineEnded s := by
  obtain ⟨front, heq, hends⟩ := h
  rcases List.append_eq_append_iff.1 heq with ⟨mid, rfl, rfl⟩ | ⟨mid, rfl, hmid⟩
  · exact ⟨mid, rfl, fun hmid => hends (hmid.append u)⟩
  · cases mid with
    | nil => exact ⟨[], hmid.symm, not_continues_nil⟩
    | cons d mid => simp [hs] at hmid

theorem of_cons (h : LineEnded (c :: s)) (hs : s ≠ []) : LineEnded s := of_append (u := [c]) h hs

theorem drop (h : LineEnded s) (hn : n < s.length) : LineEnded (s.drop n) := by
  refine of_append (u := s.take n) (by rwa [List.take_append_drop]) fun hnil => ?_
  have hlength := congrArg List.length hnil
  rw [List.length_drop, List.length_nil] at hlength
  omega

/-- What is left of the text before its end is left before what is appended. -/
theorem drop_append (hn : n < s.length) (t : List Char) : (s ++ t).drop n = s.drop n ++ t :=
  List.drop_append_of_le_length (Nat.le_of_lt hn)

/-- Only a newline ends the text. -/
theorem tail_ne_nil (h : LineEnded (c :: s)) (hc : c ≠ '\n') : s ≠ [] := by
  rintro rfl
  obtain ⟨front, heq, -⟩ := h
  cases front with
  | nil => exact hc (List.cons.inj heq).1
  | cons d front => simp at heq

theorem of_ne (h : LineEnded (c :: s)) (hc : c ≠ '\n') : LineEnded s :=
  h.of_cons (h.tail_ne_nil hc)

/-- What stands in front of the newline at the end is taken as before. -/
theorem takeWhile_append {p : Char → Bool} (h : LineEnded s) (hp : p '\n' = false)
    (t : List Char) : (s ++ t).takeWhile p = s.takeWhile p := by
  obtain ⟨front, rfl, -⟩ := h
  rw [List.append_assoc, List.singleton_append, takeWhile_append_of_neg hp,
    takeWhile_append_of_neg hp]

theorem length_takeWhile_lt {p : Char → Bool} (h : LineEnded s) (hp : p '\n' = false) :
    (s.takeWhile p).length < s.length := by
  obtain ⟨front, rfl, -⟩ := h
  rw [takeWhile_append_of_neg hp, List.length_append]
  exact Nat.lt_succ_of_le (List.takeWhile_prefix p).length_le

theorem head?_append (h : LineEnded s) (t : List Char) : (s ++ t).head? = s.head? :=
  List.head?_append_of_ne_nil s h.ne_nil

theorem tail_append (h : LineEnded s) (t : List Char) : (s ++ t).tail = s.tail ++ t :=
  List.tail_append_of_ne_nil h.ne_nil

/-- A line that is continued is not the last one. -/
theorem of_continues (h : LineEnded (u ++ '\n' :: s)) (hu : Continues u) : LineEnded s := by
  refine of_append (u := u ++ ['\n']) (by simpa using h) ?_
  rintro rfl
  obtain ⟨front, heq, hends⟩ := h
  obtain ⟨rfl, -⟩ := List.append_inj' heq rfl
  exact hends hu

/-- A continuation is not cut off. -/
theorem newline_of_append {d : Char} (h : LineEnded (c :: s)) (hc : c ≠ '\n')
    (heq : s ++ u = d :: t) : ∃ t', s = d :: t' ∧ t = t' ++ u := by
  cases s with
  | nil => exact absurd rfl (h.tail_ne_nil hc)
  | cons e s =>
    obtain ⟨rfl, rfl⟩ := List.cons.inj heq
    exact ⟨s, rfl, rfl⟩

end LineEnded

/-! ## Literals -/

theorem quoted?_append_of_none (h : LineEnded s) (hnone : quoted? q s = none) (t : List Char) :
    quoted? q (s ++ t) = none := by
  fun_induction quoted? q s with
  | case1 => exact absurd rfl h.ne_nil
  | case2 => exact absurd rfl (h.tail_ne_nil (by decide))
  | case3 c s ih =>
    have hs : s ≠ [] := by
      rintro rfl
      obtain ⟨front, heq, hends⟩ := h
      obtain ⟨rfl, -⟩ := List.append_inj' (show ['\\'] ++ [c] = front ++ ['\n'] from heq) rfl
      exact hends (.inl (List.suffix_refl _))
    rw [List.cons_append, List.cons_append, quoted?,
      ih ((h.of_ne (by decide)).of_cons hs) (Option.map_eq_none_iff.1 hnone)]
    rfl
  | case4 s hlone hpair =>
    rw [List.cons_append, quoted?, if_pos rfl]
    · exact fun hc => by cases hc
    · exact fun _ _ hc => by cases hc
  | case5 => cases hnone
  | case6 c s hlone hpair hnewline hquote ih =>
    rw [List.cons_append, quoted?_cons (ne_backslash_of_alone hlone hpair) hnewline hquote,
      ih (h.of_ne hnewline) (Option.map_eq_none_iff.1 hnone)]
    rfl

namespace Lexeme

theorem literal?_append (h : LineEnded s) (t : List Char) : literal? (s ++ t) = literal? s := by
  cases s with
  | nil => exact absurd rfl h.ne_nil
  | cons q s =>
    rw [List.cons_append, literal?, literal?]
    split
    · next hq =>
      have hne : q ≠ '\n' := by rcases hq with rfl | rfl <;> decide
      cases hbody : quoted? q s with
      | none => rw [quoted?_append_of_none (h.of_ne hne) hbody]
      | some read =>
        rw [quoted?_append hbody]
        rfl
    · rfl

theorem literal?_lt (h : LineEnded s) (hn : literal? s = some n) : n < s.length := by
  cases s with
  | nil => cases hn
  | cons q s =>
    rw [literal?] at hn
    split at hn
    · next hq =>
      obtain ⟨⟨body, rest⟩, hbody, rfl⟩ := Option.map_eq_some_iff.1 hn
      obtain rfl := quoted?_eq_some hbody
      have hne : q ≠ '\n' := by rcases hq with rfl | rfl <;> decide
      have hrest : rest ≠ [] := by
        have hclosing : LineEnded (q :: rest) := .of_append (u := q :: body) h (by simp)
        exact hclosing.tail_ne_nil hne
      have hpos := List.length_pos_iff.2 hrest
      simp only [List.length_cons, List.length_append]
      omega
    · cases hn

/-! ## Comments -/

theorem lineComment_append (h : LineEnded s) (t : List Char) :
    lineComment (s ++ t) = lineComment s ∧ lineComment s < s.length := by
  fun_induction lineComment s with
  | case1 => exact absurd rfl h.ne_nil
  | case2 s ih =>
    obtain ⟨heq, hlt⟩ := ih (h.of_continues (u := ['\\']) (.inl (List.suffix_refl _)))
    refine ⟨?_, by simpa using hlt⟩
    rw [List.cons_append, List.cons_append, lineComment, heq]
  | case3 s ih =>
    obtain ⟨heq, hlt⟩ := ih (h.of_continues (u := ['\\', '\r']) (.inr (List.suffix_refl _)))
    refine ⟨?_, by simpa using hlt⟩
    rw [List.cons_append, List.cons_append, List.cons_append, lineComment, heq]
  | case4 s hnewline hreturn =>
    refine ⟨?_, Nat.succ_pos _⟩
    rw [List.cons_append, lineComment, if_pos rfl]
    · exact fun _ hc => by cases hc
    · exact fun _ hc => by cases hc
  | case5 c s hnewline hreturn hne ih =>
    obtain ⟨heq, hlt⟩ := ih (h.of_ne hne)
    refine ⟨?_, Nat.succ_lt_succ hlt⟩
    rw [List.cons_append, lineComment, if_neg hne, heq]
    · intro u hc hu
      obtain ⟨v, rfl, -⟩ := h.newline_of_append hne hu
      exact hnewline v hc rfl
    · intro u hc hu
      obtain ⟨v, rfl, hv⟩ := h.newline_of_append hne hu
      obtain ⟨w, rfl, -⟩ := (h.of_ne hne).newline_of_append (by decide) hv.symm
      exact hreturn w hc rfl

theorem blockComment_append_of_closed (h : LineEnded s) (hclosed : ['*', '/'] <:+: s)
    (t : List Char) : blockComment (s ++ t) = blockComment s ∧ blockComment s < s.length := by
  induction s with
  | nil => exact absurd rfl h.ne_nil
  | cons c s ih =>
    by_cases hmark : c = '*' ∧ s.head? = some '/'
    · obtain ⟨rfl, hslash⟩ := hmark
      obtain ⟨rest, rfl⟩ := List.head?_eq_some_iff.1 hslash
      have hrest := (h.of_ne (by decide)).tail_ne_nil (by decide)
      exact ⟨rfl, Nat.succ_lt_succ (Nat.succ_lt_succ (List.length_pos_iff.2 hrest))⟩
    · have hs : ['*', '/'] <:+: s := by
        refine (List.infix_cons_iff.1 hclosed).resolve_left fun hprefix => hmark ?_
        obtain ⟨rest, hrest⟩ := hprefix
        obtain ⟨rfl, rfl⟩ := List.cons.inj hrest
        exact ⟨rfl, rfl⟩
      have hne : s ≠ [] := by
        rintro rfl
        simp at hs
      obtain ⟨heq, hlt⟩ := ih (h.of_cons hne) hs
      rw [List.cons_append, blockComment_cons hmark, blockComment_cons, heq]
      · exact ⟨rfl, Nat.succ_lt_succ hlt⟩
      · rwa [List.head?_append_of_ne_nil s hne]

/-- A block comment at the start of the text is closed. -/
def ClosesComment (s : List Char) : Prop := ∀ t, s = '/' :: '*' :: t → ['*', '/'] <:+: t

/-- A comment that is closed is the same comment before any other text. -/
theorem comment?_append (h : LineEnded s) (hclosed : ClosesComment s) (t : List Char) :
    comment? (s ++ t) = comment? s ∧ ∀ n, comment? s = some n → n < s.length := by
  cases s with
  | nil => exact absurd rfl h.ne_nil
  | cons c s =>
    by_cases hslash : c = '/'
    · subst hslash
      have hs := h.of_ne (by decide)
      cases s with
      | nil => exact absurd rfl hs.ne_nil
      | cons d s =>
        by_cases hline : d = '/'
        · subst hline
          obtain ⟨heq, hlt⟩ := lineComment_append (hs.of_ne (by decide)) t
          refine ⟨congrArg (fun n => some (n + 2)) heq, fun n hn => ?_⟩
          obtain rfl := Option.some.inj hn
          simpa using hlt
        · by_cases hblock : d = '*'
          · subst hblock
            obtain ⟨heq, hlt⟩ :=
              blockComment_append_of_closed (hs.of_ne (by decide)) (hclosed s rfl) t
            refine ⟨congrArg (fun n => some (n + 2)) heq, fun n hn => ?_⟩
            obtain rfl := Option.some.inj hn
            simpa using hlt
          · have hnone : ∀ u, comment? ('/' :: d :: u) = none := fun u => by
              unfold comment?
              split
              · next heq => exact absurd (List.cons.inj (List.cons.inj heq).2).1 hline
              · next heq => exact absurd (List.cons.inj (List.cons.inj heq).2).1 hblock
              · rfl
            rw [List.cons_append, List.cons_append, hnone, hnone]
            exact ⟨rfl, fun _ h => by cases h⟩
    · rw [List.cons_append, comment?_of_ne hslash, comment?_of_ne hslash]
      exact ⟨rfl, fun _ h => by cases h⟩

/-- A comment that something stands behind is closed. -/
theorem closesComment_of_drop (h : comment? s = some n) (hrest : s.drop n ≠ []) :
    ClosesComment s := by
  rintro t rfl
  obtain rfl := Option.some.inj h
  rcases exists_blockComment t with hall | ⟨body, rest, rfl, -, -⟩
  · exact absurd (by simp [hall]) hrest
  · exact ⟨body, rest, by simp⟩

theorem closesComment_of_none (h : comment? s = none) : ClosesComment s := by
  rintro t rfl
  cases h

theorem width_of_notMem (hc : c ∉ ['\'', '"', '/']) (s : List Char) : width (c :: s) = 1 := by
  simp only [List.mem_cons, List.not_mem_nil, or_false, not_or] at hc
  rw [width, comment?_of_ne hc.2.2, literal?, if_neg (by simp [hc])]
  rfl

/-- Closed lexemes end in front of the end of the text. -/
theorem width_append (h : LineEnded s) (hclosed : ClosesComment s) (t : List Char) :
    width (s ++ t) = width s ∧ (s.head? ≠ some '\n' → width s < s.length) := by
  obtain ⟨hcomment, hlt⟩ := comment?_append h hclosed t
  refine ⟨by rw [width, width, hcomment, literal?_append h], fun hhead => ?_⟩
  rw [width]
  cases hn : comment? s with
  | some n => exact hlt n hn
  | none =>
    cases hm : literal? s with
    | some m => exact literal?_lt h hm
    | none =>
      cases s with
      | nil => exact absurd rfl h.ne_nil
      | cons c s =>
        have hs := h.tail_ne_nil fun hc => hhead (congrArg some hc)
        exact Nat.succ_lt_succ (List.length_pos_iff.2 hs)

theorem trivia_of_comment (h : comment? s = some n) : trivia s = n + trivia (s.drop n) := by
  cases s with
  | nil => cases h
  | cons c s =>
    rw [trivia]
    split
    · next m hm =>
      obtain rfl := Option.some.inj (h.symm.trans hm)
      rfl
    · next hm => simp [h] at hm

theorem trivia_of_none (h : comment? (c :: s) = none) (hc : isCodeBlank c = false) :
    trivia (c :: s) = 0 := by
  rw [trivia]
  split
  · next hn => simp [h] at hn
  · rw [if_neg (by simp [hc])]

/-- White space and comments that end in front of the end of the text. -/
theorem trivia_append (h : LineEnded s) (hrest : s.drop (trivia s) ≠ []) (t : List Char) :
    trivia (s ++ t) = trivia s := by
  fun_induction trivia s with
  | case1 => exact absurd rfl h.ne_nil
  | case2 c s n hn hpos ih =>
    rw [← List.drop_drop] at hrest
    have hdrop : (c :: s).drop n ≠ [] := fun hnil => hrest (by rw [hnil, List.drop_nil])
    obtain ⟨hcomment, hlt⟩ := comment?_append h (closesComment_of_drop hn hdrop) t
    rw [trivia_of_comment (hcomment.trans hn), LineEnded.drop_append (hlt n hn),
      ih (h.drop (hlt n hn)) hrest]
  | case3 c s hn hblank ih =>
    have hs : s ≠ [] := by
      rintro rfl
      simp at hrest
    obtain ⟨hcomment, -⟩ := comment?_append h (closesComment_of_none hn) t
    rw [List.cons_append] at hcomment ⊢
    rw [trivia_of_isCodeBlank hblank (hcomment.trans hn), ih (h.of_cons hs) hrest]
  | case4 c s hn hblank =>
    obtain ⟨hcomment, -⟩ := comment?_append h (closesComment_of_none hn) t
    rw [List.cons_append] at hcomment ⊢
    rw [trivia_of_none (hcomment.trans hn) (eq_false_of_ne_true hblank)]

/-! ## Lines of directives -/

/-- The rest of a line of a directive goes to a block comment that is not closed. -/
inductive LeavesComment : List Char → Prop where
  | comment {s : List Char} : ¬['*', '/'] <:+: s → LeavesComment ('/' :: '*' :: s)
  | newline {s : List Char} : LeavesComment s → LeavesComment ('\\' :: '\n' :: s)
  | return {s : List Char} : LeavesComment s → LeavesComment ('\\' :: '\r' :: '\n' :: s)
  | lexeme {c : Char} {s : List Char} : c ≠ '\n' →
    LeavesComment ((c :: s).drop (width (c :: s))) → LeavesComment (c :: s)

/-- A line whose comments are closed ends in front of the end of the text. -/
theorem logicalLine_append (h : LineEnded s) (hclosed : ¬LeavesComment s) (t : List Char) :
    logicalLine (s ++ t) = logicalLine s ∧ logicalLine s < s.length := by
  fun_induction logicalLine s with
  | case1 => exact absurd rfl h.ne_nil
  | case2 s ih =>
    obtain ⟨heq, hlt⟩ := ih (h.of_continues (u := ['\\']) (.inl (List.suffix_refl _)))
      fun hs => hclosed (.newline hs)
    refine ⟨?_, by simpa using hlt⟩
    rw [List.cons_append, List.cons_append, logicalLine, heq]
  | case3 s ih =>
    obtain ⟨heq, hlt⟩ := ih (h.of_continues (u := ['\\', '\r']) (.inr (List.suffix_refl _)))
      fun hs => hclosed (.return hs)
    refine ⟨?_, by simpa using hlt⟩
    rw [List.cons_append, List.cons_append, List.cons_append, logicalLine, heq]
  | case4 s hnewline hreturn =>
    refine ⟨?_, Nat.succ_pos _⟩
    rw [List.cons_append, logicalLine, if_pos rfl]
    · exact fun _ hc => by cases hc
    · exact fun _ hc => by cases hc
  | case5 c s hnewline hreturn hne hpos ih =>
    have hcomment : ClosesComment (c :: s) := fun t ht => by
      rw [ht] at hclosed
      exact Decidable.by_contra fun hopen => hclosed (.comment hopen)
    obtain ⟨hwidth, hlt⟩ := width_append h hcomment t
    replace hlt := hlt (by simpa using hne)
    obtain ⟨heq, hlt'⟩ := ih (h.drop hlt) fun hs => hclosed (.lexeme hne hs)
    rw [List.length_drop] at hlt'
    refine ⟨?_, by omega⟩
    rw [List.cons_append, logicalLine, if_neg hne, ← List.cons_append, hwidth,
      LineEnded.drop_append hlt, heq]
    · intro u hc hu
      obtain ⟨v, rfl, -⟩ := h.newline_of_append hne hu
      exact hnewline v hc rfl
    · intro u hc hu
      obtain ⟨v, rfl, hv⟩ := h.newline_of_append hne hu
      obtain ⟨w, rfl, -⟩ := (h.of_ne hne).newline_of_append (by decide) hv.symm
      exact hreturn w hc rfl

/-! ## Raw strings -/

/-- What can stand between the quote and the parenthesis of a raw string. -/
structure IsDelimiter (delimiter : List Char) : Prop where
  notMem : '(' ∉ delimiter
  allowed : delimiter.any isBarredFromDelimiter = false
  byteSize_le : (String.ofList delimiter).utf8ByteSize ≤ 16

theorem rawString_of_notMem (h : '(' ∉ s) : rawString s = 0 := by
  have htake : s.takeWhile (· != '(') = s := List.takeWhile_eq_self_iff.2 (bne_of_notMem h)
  simp only [rawString, htake, List.drop_length]

theorem rawString_append_cons {delimiter : List Char} (h : '(' ∉ delimiter) (body : List Char) :
    rawString (delimiter ++ '(' :: body) =
      if (String.ofList delimiter).utf8ByteSize > 16 || delimiter.any isBarredFromDelimiter then 0
      else delimiter.length + 1 + through (')' :: delimiter ++ ['"']) body := by
  have htake : (delimiter ++ '(' :: body).takeWhile (· != '(') = delimiter :=
    takeWhile_append_cons (bne_of_notMem h) rfl body
  simp only [rawString, htake, List.drop_left]

/-- A blank bars a delimiter. -/
theorem rawString_of_mem {delimiter : List Char} (h : '(' ∉ delimiter) {c : Char}
    (hc : c ∈ delimiter) (hblank : isBlank c = true) (body : List Char) :
    rawString (delimiter ++ '(' :: body) = 0 := by
  have hany : delimiter.any isBarredFromDelimiter = true :=
    List.any_eq_true.2 ⟨c, hc, by simp [isBarredFromDelimiter, hblank]⟩
  rw [rawString_append_cons h, hany, Bool.or_true, if_pos rfl]

theorem through_append {word : List Char} (hword : word <:+: s) (hne : word ≠ []) (t : List Char) :
    through word (s ++ t) = through word s ∧ through word s ≤ s.length := by
  induction s with
  | nil => exact absurd (List.eq_nil_of_infix_nil hword) hne
  | cons c s ih =>
    rw [List.cons_append, through, through]
    by_cases hprefix : word <+: c :: s
    · have hprefix' : word <+: c :: (s ++ t) := hprefix.trans (List.prefix_append (c :: s) t)
      rw [if_pos (List.isPrefixOf_iff_prefix.2 hprefix),
        if_pos (List.isPrefixOf_iff_prefix.2 hprefix')]
      exact ⟨rfl, hprefix.length_le⟩
    · have hs : word <:+: s := (List.infix_cons_iff.1 hword).resolve_left hprefix
      have hprefix' : ¬word <+: c :: (s ++ t) := fun h => hprefix
        (List.prefix_of_prefix_length_le h (List.prefix_append (c :: s) t)
          (Nat.le_succ_of_le hs.length_le))
      obtain ⟨heq, hle⟩ := ih hs
      rw [if_neg (mt List.isPrefixOf_iff_prefix.1 hprefix),
        if_neg (mt List.isPrefixOf_iff_prefix.1 hprefix'), heq]
      exact ⟨rfl, Nat.succ_le_succ hle⟩

/-- The raw string behind an opening quote is closed, if one begins there. -/
def ClosesRawString (s : List Char) : Prop := ∀ delimiter body, s = delimiter ++ '(' :: body →
  IsDelimiter delimiter → ')' :: delimiter ++ ['"'] <:+: body

theorem rawString_append (h : LineEnded s) (hclosed : ClosesRawString s) (t : List Char) :
    rawString (s ++ t) = rawString s := by
  by_cases hmem : '(' ∈ s
  · obtain ⟨delimiter, body, rfl, hmark⟩ := List.eq_append_cons_of_mem hmem
    rw [List.append_assoc, List.cons_append, rawString_append_cons hmark,
      rawString_append_cons hmark]
    by_cases hbarred : (decide ((String.ofList delimiter).utf8ByteSize > 16) ||
        delimiter.any isBarredFromDelimiter) = true
    · rw [if_pos hbarred, if_pos hbarred]
    · have hdelimiter : IsDelimiter delimiter := by
        simp only [Bool.or_eq_true, decide_eq_true_eq, not_or] at hbarred
        exact ⟨hmark, eq_false_of_ne_true hbarred.2, Nat.le_of_not_lt hbarred.1⟩
      rw [if_neg hbarred, if_neg hbarred,
        (through_append (hclosed delimiter body rfl hdelimiter) (by simp) t).1]
  · -- The newline at the end stands in front of any parenthesis in what is appended.
    have hnewline : '\n' ∈ s := by
      obtain ⟨front, rfl, -⟩ := h
      simp
    rw [rawString_of_notMem hmem]
    by_cases hmem' : '(' ∈ t
    · obtain ⟨front, body, rfl, hfront⟩ := List.eq_append_cons_of_mem hmem'
      rw [← List.append_assoc, rawString_of_mem (by simp [hmem, hfront])
        (List.mem_append_left front hnewline) (by decide)]
    · exact rawString_of_notMem (by simp [hmem, hmem'])

end Lexeme

/-! ## Arguments -/

namespace Argument

variable {depth width : Nat} {found : List Piece}

theorem ne_nil_of_collect {read : List Piece × Nat} (h : collect depth found width s = .ok read) :
    s ≠ [] := by
  rintro rfl
  rw [collect] at h
  cases h

/-- Arguments that were taken are taken before any other text. -/
theorem collect_append_of_ok {read : List Piece × Nat} (h : LineEnded s)
    (hread : collect depth found width s = .ok read) (t : List Char) :
    collect depth found width (s ++ t) = .ok read := by
  fun_induction collect depth found width s with
  | case1 => cases hread
  | case2 depth found width s ih =>
    rw [List.cons_append, collect_opening]
    exact ih (h.of_cons (ne_nil_of_collect hread)) hread
  | case3 found width s =>
    obtain rfl := Except.ok.inj hread
    rw [List.cons_append, collect.eq_def]
    rfl
  | case4 found width s depth _ ih =>
    rw [List.cons_append, collect_closing]
    exact ih (h.of_cons (ne_nil_of_collect hread)) hread
  | case5 depth found width c s _ _ hquote body rest hbody _ ih =>
    rw [List.cons_append, collect_of_quoted? hquote (quoted?_append hbody t)]
    obtain rfl := quoted?_eq_some hbody
    refine ih ?_ hread
    exact .of_append (u := c :: (body ++ [c])) (by simpa using h) (ne_nil_of_collect hread)
  | case6 => cases hread
  | case7 depth found width c s hopen hclose hquote n hn _ ih =>
    obtain ⟨hcomment, hlt⟩ := Lexeme.comment?_append h
      (Lexeme.closesComment_of_drop hn (ne_nil_of_collect hread)) t
    rw [collect_of_comment? (hcomment.trans hn), LineEnded.drop_append (hlt n hn)]
    exact ih (h.drop (hlt n hn)) hread
  | case8 depth found width c s hopen hclose hquote hn ih =>
    obtain ⟨hcomment, -⟩ := Lexeme.comment?_append h (Lexeme.closesComment_of_none hn) t
    rw [List.cons_append] at hcomment ⊢
    rw [collect_of_none hopen hclose hquote (hcomment.trans hn)]
    exact ih (h.of_cons (ne_nil_of_collect hread)) hread

end Argument

end FlashStrings
