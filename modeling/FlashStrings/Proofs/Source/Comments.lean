import FlashStrings.Proofs.Source.Appended
import FlashStrings.Proofs.Source.Boundaries

/-!
# A comment and spaces in its place

A text with a block comment in one line, and the text with as many spaces in its place.
What reads the text lexeme by lexeme takes the same of both, as long as it comes to the
comment at its start and not in the middle of another lexeme: the gap between a macro name
and its parenthesis (`Lexeme.GapMeets`), the line of a definition (`Lexeme.LineMeets`) and
the arguments of an invocation (`Argument.Meets`).  Either it ends before the comment or it
takes it as a whole.
-/

namespace FlashStrings

/-- A block comment with this text between its marks. -/
def commented (body : List Char) : List Char := '/' :: '*' :: (body ++ ['*', '/'])

/-- As many spaces as the block comment has characters. -/
def blanked (body : List Char) : List Char := List.replicate (body.length + 4) ' '

@[simp] theorem length_commented (body : List Char) :
    (commented body).length = body.length + 4 := by
  simp [commented]

@[simp] theorem length_blanked (body : List Char) : (blanked body).length = body.length + 4 := by
  simp [blanked]

/-- The text stands between the marks of a comment in one line. -/
structure OneLine (body : List Char) : Prop where
  closes : ¬['*', '/'] <:+: body
  oneLine : '\n' ∉ body

variable {body v w s t : List Char} {c q : Char} {n : Nat}

/-! ## Literals -/

theorem quoted?_quote (hbackslash : q ≠ '\\') (hnewline : q ≠ '\n') (s : List Char) :
    quoted? q (q :: s) = some ([], s) := by
  rw [quoted?, if_neg hnewline, if_pos rfl]
  · exact fun h => absurd h hbackslash
  · exact fun _ _ h => absurd h hbackslash

theorem quoted?_newline (q : Char) (s : List Char) : quoted? q ('\n' :: s) = none := by
  rw [quoted?, if_pos rfl]
  · exact fun h => by cases h
  · exact fun _ _ h => by cases h

/-- A part of a line that does not close a literal, and ends with no backslash, does not
matter to it. -/
theorem quoted?_of_append_of_none (hs : '\n' ∉ s) (hlast : s.getLast? ≠ some '\\')
    (h : quoted? q (s ++ t) = none) : quoted? q t = none := by
  fun_induction quoted? q s with
  | case1 => exact h
  | case2 => exact absurd rfl hlast
  | case3 c s ih =>
    rw [List.cons_append, List.cons_append, quoted?, Option.map_eq_none_iff] at h
    refine ih (fun hmem => hs (by simp [hmem])) (fun heq => hlast ?_) h
    rw [List.getLast?_cons, List.getLast?_cons, heq]
    rfl
  | case4 => exact absurd List.mem_cons_self hs
  | case5 s hlone hpair hnewline =>
    rw [List.cons_append, quoted?_quote (ne_backslash_of_alone hlone hpair) hnewline] at h
    cases h
  | case6 c s hlone hpair hnewline hquote ih =>
    rw [List.cons_append, quoted?_cons (ne_backslash_of_alone hlone hpair) hnewline hquote,
      Option.map_eq_none_iff] at h
    refine ih (fun hmem => hs (List.mem_cons_of_mem c hmem)) (fun heq => hlast ?_) h
    rw [List.getLast?_cons, heq]
    rfl

theorem quoted?_spaces (hq : q ≠ ' ') (h : quoted? q t = none) (n : Nat) :
    quoted? q (List.replicate n ' ' ++ t) = none := by
  induction n with
  | zero => exact h
  | succ n ih =>
    rw [List.replicate_succ, List.cons_append, quoted?_cons (by decide) (by decide) hq.symm, ih]
    rfl

/-- A literal that is not closed is not closed with spaces in place of the comment. -/
theorem quoted?_blanked (hbody : '\n' ∉ body) (hq : q = '"' ∨ q = '\'')
    (h : quoted? q (w ++ (commented body ++ v)) = none) :
    quoted? q (w ++ (blanked body ++ v)) = none := by
  have hspace : q ≠ ' ' := by rcases hq with rfl | rfl <;> decide
  have hlast (u : List Char) : (u ++ ['*', '/']).getLast? ≠ some '\\' := by
    rw [List.getLast?_append_of_ne_nil u (by simp)]
    decide
  fun_induction quoted? q w with
  | case1 =>
    have hv : quoted? q v = none :=
      quoted?_of_append_of_none (s := commented body) (by simp [commented, hbody])
        (hlast ('/' :: '*' :: body)) h
    exact quoted?_spaces hspace hv (body.length + 4)
  | case2 =>
    rw [List.cons_append, List.nil_append, commented, List.cons_append, quoted?,
      Option.map_eq_none_iff] at h
    have hv : quoted? q v = none :=
      quoted?_of_append_of_none (s := '*' :: (body ++ ['*', '/'])) (by simp [hbody])
        (hlast ('*' :: body)) h
    show quoted? q ('\\' :: ' ' :: (List.replicate (body.length + 3) ' ' ++ v)) = none
    rw [quoted?, quoted?_spaces hspace hv]
    rfl
  | case3 c w ih =>
    rw [List.cons_append, List.cons_append, quoted?, Option.map_eq_none_iff] at h ⊢
    exact ih h
  | case4 w => exact quoted?_newline q _
  | case5 w hlone hpair hnewline =>
    rw [List.cons_append, quoted?_quote (ne_backslash_of_alone hlone hpair) hnewline] at h
    cases h
  | case6 c w hlone hpair hnewline hquote ih =>
    rw [List.cons_append, quoted?_cons (ne_backslash_of_alone hlone hpair) hnewline hquote,
      Option.map_eq_none_iff] at h ⊢
    exact ih h

/-! ## Comments before the comment -/

namespace Lexeme

/-- A line comment ends at the first newline that does not continue it. -/
theorem lineComment_of_continued (hs : Continued s) (hends : ¬Continues s) (t : List Char) :
    lineComment (s ++ '\n' :: t) = s.length := by
  obtain ⟨body, rest, heq, hlen, hbody, hrest⟩ := exists_lineComment (s ++ '\n' :: t)
  rw [hlen]
  rcases List.append_eq_append_iff.1 heq with ⟨mid, rfl, hmid⟩ | ⟨mid, rfl, hmid⟩
  · cases mid with
    | nil => simp
    | cons d mid =>
      obtain ⟨rfl, -⟩ := List.cons.inj hmid
      exact absurd (hbody s mid rfl) hends
  · cases mid with
    | nil => simp
    | cons d mid =>
      rcases hrest with rfl | ⟨hends', u, rfl⟩
      · cases hmid
      · obtain ⟨rfl, -⟩ := List.cons.inj hmid
        exact absurd (hs body mid rfl) hends'

/-- A block comment ends at the first mark that ends it. -/
theorem blockComment_append_mark (hs : ¬['*', '/'] <:+: s) (t : List Char) :
    blockComment (s ++ '*' :: '/' :: t) = s.length + 2 := by
  induction s with
  | nil => rfl
  | cons c s ih =>
    have hmark : ¬(c = '*' ∧ (s ++ '*' :: '/' :: t).head? = some '/') := by
      rintro ⟨rfl, hslash⟩
      cases s with
      | nil => cases hslash
      | cons d s =>
        obtain rfl := Option.some.inj hslash
        exact hs ⟨[], s, rfl⟩
    rw [List.cons_append, blockComment_cons hmark, ih fun h => hs (List.infix_cons h)]
    rfl

theorem comment?_commented (hbody : ¬['*', '/'] <:+: body) (v : List Char) :
    comment? (commented body ++ v) = some (body.length + 4) := by
  show some (blockComment (body ++ ['*', '/'] ++ v) + 2) = _
  rw [List.append_assoc]
  exact congrArg (fun n => some (n + 2)) (blockComment_append_mark hbody v)

/-- What is split in two ways is split in three parts where the first split is not behind
the second. -/
theorem exists_append_of_length_le {u : List Char} (h : s ++ t = u ++ v)
    (hle : u.length ≤ s.length) : ∃ mid, s = u ++ mid ∧ v = mid ++ t := by
  rcases List.append_eq_append_iff.1 h with ⟨mid, rfl, rfl⟩ | ⟨mid, rfl, rfl⟩
  · obtain rfl : mid = [] := by
      rw [List.length_append] at hle
      exact List.length_eq_zero_iff.1 (by omega)
    exact ⟨[], by simp, by simp⟩
  · exact ⟨mid, rfl, rfl⟩

/-- A comment that ends in the first part of a text does not depend on the second part. -/
theorem comment?_of_le (ht : t.head? = some c) (hc : c ≠ '\n')
    (h : comment? (s ++ t) = some n) (hle : n ≤ s.length) (u : List Char) :
    comment? (s ++ u) = some n := by
  obtain ⟨t, rfl⟩ := List.head?_eq_some_iff.1 ht
  rcases comment?_cases h with ⟨x, heq, rfl⟩ | ⟨x, heq, rfl⟩
  · obtain ⟨s, rfl, rfl⟩ := exists_append_of_length_le (u := ['/', '/']) heq
      (Nat.le_trans (Nat.le_add_left 2 _) hle)
    obtain ⟨body, rest, hsplit, hlen, hbody, hrest⟩ := exists_lineComment (s ++ c :: t)
    have hshort : body.length ≤ s.length :=
      hlen ▸ Nat.le_of_succ_le_succ (Nat.le_of_succ_le_succ hle)
    obtain ⟨mid, rfl, rfl⟩ := exists_append_of_length_le hsplit hshort
    cases mid with
    | nil =>
      rcases hrest with hnil | ⟨-, x, hcons⟩
      · cases hnil
      · exact absurd (List.cons.inj hcons).1 hc
    | cons d mid =>
      rcases hrest with hnil | ⟨hends, x, hcons⟩
      · cases hnil
      · obtain ⟨rfl, -⟩ := List.cons.inj hcons
        show some (lineComment (body ++ '\n' :: mid ++ u) + 2) = _
        rw [hlen, List.append_assoc, List.cons_append, lineComment_of_continued hbody hends]
  · obtain ⟨s, rfl, rfl⟩ := exists_append_of_length_le (u := ['/', '*']) heq
      (Nat.le_trans (Nat.le_add_left 2 _) hle)
    have hshort : blockComment (s ++ c :: t) ≤ s.length :=
      Nat.le_of_succ_le_succ (Nat.le_of_succ_le_succ hle)
    rcases exists_blockComment (s ++ c :: t) with hall | ⟨body, rest, hsplit, hlen, hbody⟩
    · rw [hall, List.length_append, List.length_cons] at hshort
      omega
    · rw [hlen] at hshort
      rw [show body ++ '*' :: '/' :: rest = body ++ ['*', '/'] ++ rest by simp] at hsplit
      obtain ⟨mid, rfl, rfl⟩ := exists_append_of_length_le hsplit (by simpa using hshort)
      show some (blockComment (body ++ ['*', '/'] ++ mid ++ u) + 2) = _
      rw [hlen, List.append_assoc, List.append_assoc]
      exact congrArg (fun n => some (n + 2)) (blockComment_append_mark hbody _)

/-- Two characters tell whether a comment begins. -/
theorem comment?_eq_none_of_head? (h : comment? (c :: s) = none) (hhead : t.head? = s.head?) :
    comment? (c :: t) = none := by
  by_cases hslash : c = '/'
  · subst hslash
    cases t with
    | nil => rfl
    | cons d t =>
      obtain ⟨s, rfl⟩ := List.head?_eq_some_iff.1 hhead.symm
      by_cases hd : d = '/' ∨ d = '*'
      · rcases hd with rfl | rfl <;> cases h
      · rw [not_or] at hd
        simp [comment?, hd]
  · exact comment?_of_ne hslash t

/-- Where no comment begins before one, none begins before spaces. -/
theorem comment?_blanked (h : comment? (c :: (w ++ (commented body ++ v))) = none) :
    comment? (c :: (w ++ (blanked body ++ v))) = none := by
  by_cases hslash : c = '/'
  · subst hslash
    cases w with
    | nil => cases h
    | cons d w =>
      by_cases hd : d = '/' ∨ d = '*'
      · rcases hd with rfl | rfl <;> cases h
      · rw [not_or] at hd
        simp [comment?, hd]
  · exact comment?_of_ne hslash _

theorem literal?_of_le (h : literal? (c :: (s ++ t)) = some n) (hle : n ≤ s.length + 1)
    (u : List Char) : literal? (c :: (s ++ u)) = some n := by
  rw [literal?] at h ⊢
  split at h
  · next hq =>
    obtain ⟨⟨body, rest⟩, hbody, rfl⟩ := Option.map_eq_some_iff.1 h
    have hsplit := quoted?_eq_some hbody
    rw [show body ++ c :: rest = body ++ [c] ++ rest by simp] at hsplit
    obtain ⟨mid, rfl, rfl⟩ := exists_append_of_length_le hsplit (by simpa using hle)
    rw [if_pos hq, List.append_assoc, List.append_assoc, List.singleton_append, quoted?_body hbody]
    rfl
  · cases h

theorem literal?_blanked (hbody : '\n' ∉ body)
    (h : literal? (c :: (w ++ (commented body ++ v))) = none) :
    literal? (c :: (w ++ (blanked body ++ v))) = none := by
  rw [literal?] at h ⊢
  split at h
  · next hq =>
    rw [if_pos hq, quoted?_blanked hbody hq (Option.map_eq_none_iff.1 h)]
    rfl
  · next hq => rw [if_neg hq]

/-- A lexeme that ends before the comment is the same before spaces. -/
theorem width_blanked (hbody : OneLine body)
    (h : width (c :: (w ++ (commented body ++ v))) ≤ w.length + 1) :
    width (c :: (w ++ (blanked body ++ v))) = width (c :: (w ++ (commented body ++ v))) := by
  rw [width] at h
  rw [width, width]
  cases hcomment : comment? (c :: (w ++ (commented body ++ v))) with
  | some n =>
    rw [hcomment] at h
    rw [← List.cons_append, comment?_of_le (t := commented body ++ v) rfl (by decide) hcomment h]
    rfl
  | none =>
    rw [hcomment] at h
    rw [comment?_blanked hcomment]
    cases hliteral : literal? (c :: (w ++ (commented body ++ v))) with
    | some n =>
      rw [hliteral] at h
      rw [literal?_of_le hliteral h]
    | none => rw [literal?_blanked hbody.oneLine hliteral]

/-! ## Raw strings -/

/-- A word that is found before the end of the first part stands in it. -/
theorem infix_of_through_le {word : List Char} (hword : word ≠ []) (ht : t ≠ [])
    (h : through word (s ++ t) ≤ s.length) : word <:+: s := by
  induction s with
  | nil =>
    obtain ⟨c, t, rfl⟩ := List.exists_cons_of_ne_nil ht
    rw [List.nil_append, through] at h
    split at h
    · exact absurd (List.length_eq_zero_iff.1 (Nat.le_zero.1 h)) hword
    · cases h
  | cons c s ih =>
    rw [List.cons_append, through] at h
    split at h
    · next hprefix =>
      exact (List.prefix_of_prefix_length_le (List.isPrefixOf_iff_prefix.1 hprefix)
        (List.prefix_append (c :: s) t) h).isInfix
    · exact List.infix_cons (ih (Nat.le_of_succ_le_succ h))

/-- A raw string goes behind its parenthesis, if there is one. -/
theorem rawString_eq_zero (hs : '(' ∉ s) (h : rawString (s ++ t) ≤ s.length) :
    rawString (s ++ t) = 0 := by
  by_cases hmem : '(' ∈ t
  · obtain ⟨front, back, rfl, hfront⟩ := List.eq_append_cons_of_mem hmem
    have hmark : '(' ∉ s ++ front := by simp [hs, hfront]
    rw [← List.append_assoc, rawString_append_cons hmark] at h ⊢
    split
    · rfl
    · next hbarred =>
      rw [if_neg hbarred, List.length_append] at h
      omega
  · exact rawString_of_notMem (by simp [hs, hmem])

/-- A raw string that ends before the comment is the same before spaces, which cannot stand
in a delimiter. -/
theorem rawString_blanked (h : rawString (w ++ (commented body ++ v)) ≤ w.length) :
    rawString (w ++ (blanked body ++ v)) = rawString (w ++ (commented body ++ v)) := by
  by_cases hmem : '(' ∈ w
  · obtain ⟨delimiter, rest, rfl, hmark⟩ := List.eq_append_cons_of_mem hmem
    simp only [List.append_assoc, List.cons_append, rawString_append_cons hmark] at h ⊢
    split at h
    · next hbarred => rw [if_pos hbarred, if_pos hbarred]
    · next hbarred =>
      have hshort : through (')' :: (delimiter ++ ['"'])) (rest ++ (commented body ++ v)) ≤
          rest.length := by
        rw [List.length_append, List.length_cons] at h
        omega
      have hinfix := infix_of_through_le (by simp) (by simp [commented]) hshort
      rw [if_neg hbarred, if_neg hbarred, (through_append hinfix (by simp) _).1,
        (through_append hinfix (by simp) _).1]
  · rw [rawString_eq_zero hmem h]
    by_cases hmem' : '(' ∈ v
    · obtain ⟨front, back, rfl, hfront⟩ := List.eq_append_cons_of_mem hmem'
      have hblanked : '(' ∉ blanked body := fun hmem =>
        absurd (List.eq_of_mem_replicate hmem) (by decide)
      have hspace : ' ' ∈ w ++ (blanked body ++ front) := by simp [blanked]
      rw [← List.append_assoc (blanked body), ← List.append_assoc]
      exact rawString_of_mem (by simp [hmem, hblanked, hfront]) hspace (by decide) back
    · have hblanked : '(' ∉ blanked body := fun hmem =>
        absurd (List.eq_of_mem_replicate hmem) (by decide)
      exact rawString_of_notMem (by simp [hmem, hblanked, hmem'])

/-! ## The line of a definition -/

/-- A prefix without the character where the second part begins stands in the first part. -/
theorem prefix_of_prefix_append {front : List Char} (h : front <+: s ++ c :: t)
    (hc : c ∉ front) : front <+: s := by
  rcases Nat.le_total front.length s.length with hle | hle
  · exact List.prefix_of_prefix_length_le h (List.prefix_append s (c :: t)) hle
  · obtain ⟨rest, rfl⟩ := List.prefix_of_prefix_length_le (List.prefix_append s (c :: t)) h hle
    cases rest with
    | nil => simp
    | cons d rest =>
      obtain ⟨rfl, -⟩ := List.cons_prefix_cons.1 ((List.prefix_append_right_inj s).1 h)
      exact absurd (by simp) hc

/-- Lexeme by lexeme the rest of a line comes to the text `t` at its start, or ends before it. -/
inductive LineMeets (t : List Char) : List Char → Prop where
  | here : LineMeets t []
  | newline {w : List Char} : LineMeets t ('\n' :: w)
  | continued {w : List Char} : LineMeets t w → LineMeets t ('\\' :: '\n' :: w)
  | return {w : List Char} : LineMeets t w → LineMeets t ('\\' :: '\r' :: '\n' :: w)
  | lexeme {c : Char} {w : List Char} :
    c ≠ '\n' → ¬(c = '\\' ∧ (['\n'] <+: w ∨ ['\r', '\n'] <+: w)) →
    width (c :: (w ++ t)) ≤ w.length + 1 →
    LineMeets t ((c :: w).drop (width (c :: (w ++ t)))) → LineMeets t (c :: w)

theorem logicalLine_cons (hc : c ≠ '\n')
    (hjoin : ¬(c = '\\' ∧ (['\n'] <+: s ∨ ['\r', '\n'] <+: s))) :
    logicalLine (c :: s) = width (c :: s) + logicalLine ((c :: s).drop (width (c :: s))) := by
  rw [logicalLine, if_neg hc]
  · rintro u rfl rfl
    exact hjoin ⟨rfl, .inl ⟨u, rfl⟩⟩
  · rintro u rfl rfl
    exact hjoin ⟨rfl, .inr ⟨u, rfl⟩⟩

theorem logicalLine_spaces (n : Nat) (s : List Char) :
    logicalLine (List.replicate n ' ' ++ s) = n + logicalLine s := by
  induction n with
  | zero => simp
  | succ n ih =>
    rw [List.replicate_succ, List.cons_append, logicalLine_cons (by decide) (by simp),
      width_of_notMem (by decide), List.drop_one, List.tail_cons, ih]
    omega

/-- A line that meets the comment goes as far with spaces in its place, and does not end in
it. -/
theorem LineMeets.logicalLine_eq (hbody : OneLine body)
    (h : LineMeets (commented body ++ v) w) :
    logicalLine (w ++ (blanked body ++ v)) = logicalLine (w ++ (commented body ++ v)) ∧
      (logicalLine (w ++ (commented body ++ v)) < w.length ∨
        w.length + (body.length + 4) ≤ logicalLine (w ++ (commented body ++ v))) := by
  induction h with
  | here =>
    have hwidth : width (commented body ++ v) = body.length + 4 := by
      rw [width, comment?_commented hbody.closes]
      rfl
    have hline : logicalLine (commented body ++ v) = body.length + 4 + logicalLine v := by
      have hcons := logicalLine_cons (c := '/') (s := '*' :: (body ++ ['*', '/'] ++ v))
        (by decide) (by simp)
      change logicalLine (commented body ++ v) = width (commented body ++ v) +
        logicalLine ((commented body ++ v).drop (width (commented body ++ v))) at hcons
      rw [hcons, hwidth, ← length_commented, List.drop_left]
    rw [List.nil_append, List.nil_append, hline, blanked, logicalLine_spaces]
    exact ⟨rfl, .inr (by simp)⟩
  | @newline w =>
    have hline (s : List Char) : logicalLine ('\n' :: w ++ s) = 0 := by
      rw [List.cons_append, logicalLine, if_pos rfl]
      · exact fun _ h => by cases h
      · exact fun _ h => by cases h
    rw [hline, hline]
    exact ⟨rfl, .inl (Nat.zero_lt_succ _)⟩
  | @continued w _ ih =>
    have hline (s : List Char) :
        logicalLine ('\\' :: '\n' :: w ++ s) = logicalLine (w ++ s) + 2 := by
      rw [List.cons_append, List.cons_append, logicalLine]
    rw [hline, hline, ih.1, List.length_cons, List.length_cons]
    omega
  | @«return» w _ ih =>
    have hline (s : List Char) :
        logicalLine ('\\' :: '\r' :: '\n' :: w ++ s) = logicalLine (w ++ s) + 3 := by
      rw [List.cons_append, List.cons_append, List.cons_append, logicalLine]
    rw [hline, hline, ih.1, List.length_cons, List.length_cons, List.length_cons]
    omega
  | @lexeme c w hc hjoin hwidth _ ih =>
    have hline {d : Char} {s : List Char} (hd : d ∉ ['\r', '\n'])
        (hsame : width (c :: (w ++ d :: s)) = width (c :: (w ++ (commented body ++ v)))) :
        logicalLine (c :: (w ++ d :: s)) = width (c :: (w ++ (commented body ++ v))) +
          logicalLine ((c :: w).drop (width (c :: (w ++ (commented body ++ v)))) ++ d :: s) := by
      have hfront {front : List Char} (hin : front ⊆ ['\r', '\n'])
          (h : front <+: w ++ d :: s) : front <+: w :=
        prefix_of_prefix_append h fun hmem => hd (hin hmem)
      have hjoin' : ¬(c = '\\' ∧ (['\n'] <+: w ++ d :: s ∨ ['\r', '\n'] <+: w ++ d :: s)) :=
        fun h => hjoin ⟨h.1, h.2.imp (hfront (by simp)) (hfront (by simp))⟩
      have hdrop := @List.drop_append_of_le_length _ (c :: w) (d :: s) _ hwidth
      rw [List.cons_append] at hdrop
      rw [logicalLine_cons hc hjoin', hsame, hdrop]
    have hspaces := hline (d := ' ') (s := List.replicate (body.length + 3) ' ' ++ v) (by decide)
      (width_blanked hbody hwidth)
    have hcomment := hline (d := '/') (s := '*' :: (body ++ ['*', '/'] ++ v)) (by decide) rfl
    change logicalLine (c :: (w ++ (blanked body ++ v))) = _ +
      logicalLine (_ ++ (blanked body ++ v)) at hspaces
    change logicalLine (c :: (w ++ (commented body ++ v))) = _ +
      logicalLine (_ ++ (commented body ++ v)) at hcomment
    obtain ⟨heq, hends⟩ := ih
    rw [List.length_drop, List.length_cons] at hends
    rw [List.cons_append, List.cons_append, hspaces, hcomment, heq, List.length_cons]
    omega

end Lexeme

/-! ## Arguments -/

namespace Argument

/-- Lexeme by lexeme the arguments come to the text `t` at its start, or end before it: at
the parenthesis that closes the invocation or at a literal that is not closed. -/
inductive Meets (t : List Char) : Nat → List Char → Prop where
  | here {depth : Nat} : Meets t depth []
  | closed {w : List Char} : Meets t 0 (')' :: w)
  | unclosed {depth : Nat} {q : Char} {w : List Char} :
    q = '"' ∨ q = '\'' → quoted? q (w ++ t) = none → Meets t depth (q :: w)
  | opening {depth : Nat} {w : List Char} : Meets t (depth + 1) w → Meets t depth ('(' :: w)
  | closing {depth : Nat} {w : List Char} : Meets t depth w → Meets t (depth + 1) (')' :: w)
  | literal {depth : Nat} {q : Char} {body w : List Char} :
    q = '"' ∨ q = '\'' → quoted? q (body ++ [q]) = some (body, []) → Meets t depth w →
    Meets t depth (q :: (body ++ q :: w))
  | comment {depth n : Nat} {w : List Char} :
    Lexeme.comment? (w ++ t) = some n → n ≤ w.length → Meets t depth (w.drop n) →
    Meets t depth w
  | char {depth : Nat} {c : Char} {w : List Char} :
    c ∉ ['(', ')', '"', '\''] → Lexeme.comment? (c :: (w ++ t)) = none → Meets t depth w →
    Meets t depth (c :: w)

variable {depth width : Nat} {found : List Piece}

theorem collect_end (found : List Piece) (width : Nat) (s : List Char) :
    collect 0 found width (')' :: s) = .ok (found.reverse, width + 1) := by
  rw [collect.eq_def]
  rfl

theorem collect_of_unclosed (hq : q = '"' ∨ q = '\'') (h : quoted? q s = none) :
    collect depth found width (q :: s) = .error .unterminatedString := by
  have hopen : q ≠ '(' := by rcases hq with rfl | rfl <;> decide
  have hclose : q ≠ ')' := by rcases hq with rfl | rfl <;> decide
  rw [collect.eq_def]
  dsimp only
  rw [if_neg hopen, if_neg hclose, if_pos hq]
  split
  · next heq => simp [h] at heq
  · rfl

/-- The pieces that were found stand in front of those that are found. -/
theorem collect_append_found (depth : Nat) (found front : List Piece) (width : Nat)
    (s : List Char) :
    collect depth (found ++ front) width s =
      (collect depth found width s).map fun (ps, n) => (front.reverse ++ ps, n) := by
  fun_induction collect depth found width s with
  | case1 depth found width => rw [collect]; rfl
  | case2 depth found width s ih => rw [collect_opening]; exact ih
  | case3 found width s =>
    rw [collect_end, List.reverse_append]
    rfl
  | case4 found width s depth _ ih => rw [collect_closing]; exact ih
  | case5 depth found width c s hopen hclose hquote body rest hbody _ ih =>
    rw [collect_of_quoted? hquote hbody]; exact ih
  | case6 depth found width c s hopen hclose hquote hbody =>
    rw [collect_of_unclosed hquote hbody]; rfl
  | case7 depth found width c s hopen hclose hquote n hn _ ih =>
    rw [collect_of_comment? hn]; exact ih
  | case8 depth found width c s hopen hclose hquote hn ih =>
    rw [collect_of_none hopen hclose hquote hn]; exact ih

theorem collect_spaces (n : Nat) (s : List Char) :
    collect depth found width (List.replicate n ' ' ++ s) =
      collect depth (List.replicate n (.char ' ') ++ found) (width + n) s := by
  induction n generalizing found width with
  | zero => rfl
  | succ n ih =>
    rw [List.replicate_succ, List.cons_append, collect_char (by decide), ih, List.replicate_succ']
    simp [Nat.add_comm, Nat.add_left_comm]

/-- Two readings of arguments: both have the same error, or both end within the first `n`
characters and are the same, or both end behind `n + k` and one has `k` blanks where the
other has one. -/
inductive SameReading (n k : Nat) : Except ArgumentError (List Piece × Nat) →
    Except ArgumentError (List Piece × Nat) → Prop where
  | error (e : ArgumentError) : SameReading n k (.error e) (.error e)
  | before {ps : List Piece} {width : Nat} :
    width ≤ n → SameReading n k (.ok (ps, width)) (.ok (ps, width))
  | behind {front back : List Piece} {width : Nat} :
    n + k ≤ width → SameReading n k (.ok (front ++ .char ' ' :: back, width))
      (.ok (front ++ (List.replicate k (.char ' ') ++ back), width))

theorem SameReading.of_eq {n n' k : Nat} {x y : Except ArgumentError (List Piece × Nat)}
    (h : SameReading n k x y) (heq : n = n') : SameReading n' k x y := heq ▸ h

/-- Arguments that meet the comment are read as with spaces in its place. -/
theorem Meets.collect_eq (hbody : OneLine body) (h : Meets (commented body ++ v) depth w)
    (found : List Piece) (width : Nat) :
    SameReading (width + w.length) (body.length + 4)
      (collect depth found width (w ++ (commented body ++ v)))
      (collect depth found width (w ++ (blanked body ++ v))) := by
  induction h generalizing found width with
  | @here depth =>
    have hcomment : collect depth found width (commented body ++ v) =
        (collect depth [] (width + (body.length + 4)) v).map fun (ps, n) =>
          ((.char ' ' :: found).reverse ++ ps, n) := by
      rw [collect_of_comment? (Lexeme.comment?_commented hbody.closes v), ← length_commented,
        List.drop_left]
      exact collect_append_found depth [] (.char ' ' :: found) _ v
    have hspaces : collect depth found width (blanked body ++ v) =
        (collect depth [] (width + (body.length + 4)) v).map fun (ps, n) =>
          ((List.replicate (body.length + 4) (Piece.char ' ') ++ found).reverse ++ ps, n) := by
      rw [blanked, collect_spaces]
      exact collect_append_found depth []
        (List.replicate (body.length + 4) (.char ' ') ++ found) (width + (body.length + 4)) v
    rw [List.nil_append, List.nil_append, hcomment, hspaces]
    cases hread : collect depth [] (width + (body.length + 4)) v with
    | error e => exact .error e
    | ok read =>
      obtain ⟨ps, n⟩ := read
      obtain ⟨m, rfl, -⟩ := Scan.closes_collect hread
      have hbehind := @SameReading.behind (width + ([] : List Char).length) (body.length + 4)
        found.reverse ps (width + (body.length + 4) + m) (by simp)
      simpa [Except.map] using hbehind
  | @closed w =>
    rw [List.cons_append, List.cons_append, collect_end, collect_end]
    exact .before (by simp)
  | unclosed hq hnone =>
    rw [List.cons_append, List.cons_append, collect_of_unclosed hq hnone,
      collect_of_unclosed hq (quoted?_blanked hbody.oneLine hq hnone)]
    exact .error _
  | @opening depth w _ ih =>
    rw [List.cons_append, List.cons_append, collect_opening, collect_opening]
    exact (ih _ _).of_eq (by simp; omega)
  | @closing depth w _ ih =>
    rw [List.cons_append, List.cons_append, collect_closing, collect_closing]
    exact (ih _ _).of_eq (by simp; omega)
  | @literal depth q content w hq hcontent _ ih =>
    simp only [List.cons_append, List.append_assoc]
    rw [collect_literal hq hcontent, collect_literal hq hcontent]
    exact (ih _ _).of_eq (by simp; omega)
  | @comment depth n w hn hle _ ih =>
    have hn' := Lexeme.comment?_of_le rfl (by decide) hn hle (blanked body ++ v)
    rw [collect_of_comment? hn, collect_of_comment? hn', List.drop_append_of_le_length hle,
      List.drop_append_of_le_length hle]
    exact (ih _ _).of_eq (by rw [List.length_drop]; omega)
  | @char depth c w hc hn _ ih =>
    simp only [List.mem_cons, List.not_mem_nil, or_false, not_or] at hc
    have hquote : ¬(c = '"' ∨ c = '\'') := by simp [hc]
    rw [List.cons_append, List.cons_append, collect_of_none hc.1 hc.2.1 hquote hn,
      collect_of_none hc.1 hc.2.1 hquote (Lexeme.comment?_blanked hn)]
    exact (ih _ _).of_eq (by simp; omega)

end Argument

/-! ## The gap behind a macro name -/

namespace Lexeme

/-- Lexeme by lexeme what stands behind a macro name comes to the text `t` at its start, or
ends before it.  Behind a parenthesis the arguments do. -/
inductive GapMeets (t : List Char) : List Char → Prop where
  | here : GapMeets t []
  | blank {c : Char} {w : List Char} : isCodeBlank c = true → GapMeets t w → GapMeets t (c :: w)
  | comment {n : Nat} {w : List Char} :
    comment? (w ++ t) = some n → n ≤ w.length → GapMeets t (w.drop n) → GapMeets t w
  | arguments {w : List Char} : Argument.Meets t 0 w → GapMeets t ('(' :: w)
  | other {c : Char} {w : List Char} :
    c ≠ '(' → isCodeBlank c = false → comment? (c :: (w ++ t)) = none → GapMeets t (c :: w)

theorem trivia_spaces (n : Nat) (s : List Char) :
    trivia (List.replicate n ' ' ++ s) = n + trivia s := by
  induction n with
  | zero => simp
  | succ n ih =>
    rw [List.replicate_succ, List.cons_append,
      trivia_of_isCodeBlank rfl (comment?_of_ne (by decide) _), ih]
    omega

/-- A gap that meets the comment goes as far with spaces in its place.  It ends before the
comment, with arguments that meet it behind a parenthesis, or goes through it. -/
theorem GapMeets.trivia_eq (hbody : OneLine body) (h : GapMeets (commented body ++ v) w) :
    trivia (w ++ (blanked body ++ v)) = trivia (w ++ (commented body ++ v)) ∧
      (w.length + (body.length + 4) ≤ trivia (w ++ (commented body ++ v)) ∨
        ∃ c rest, w.drop (trivia (w ++ (commented body ++ v))) = c :: rest ∧
          (c = '(' → Argument.Meets (commented body ++ v) 0 rest)) := by
  induction h with
  | here =>
    rw [List.nil_append, List.nil_append, blanked, trivia_spaces,
      trivia_of_comment (comment?_commented hbody.closes v), ← length_commented, List.drop_left]
    exact ⟨rfl, .inl (by simp)⟩
  | @blank c w hc _ ih =>
    have hne : c ≠ '/' := by
      rintro rfl
      cases hc
    obtain ⟨heq, hends⟩ := ih
    rw [List.cons_append, List.cons_append, trivia_of_isCodeBlank hc (comment?_of_ne hne _),
      trivia_of_isCodeBlank hc (comment?_of_ne hne _), heq, List.drop_succ_cons, List.length_cons]
    exact ⟨rfl, hends.imp_left fun hle => by omega⟩
  | @comment n w hn hle _ ih =>
    have hn' := comment?_of_le rfl (by decide) hn hle (blanked body ++ v)
    obtain ⟨heq, hends⟩ := ih
    rw [trivia_of_comment hn, trivia_of_comment hn', List.drop_append_of_le_length hle,
      List.drop_append_of_le_length hle, heq, ← List.drop_drop]
    rw [List.length_drop] at hends
    exact ⟨rfl, hends.imp_left fun hle => by omega⟩
  | @arguments w hargs =>
    rw [List.cons_append, List.cons_append, Scan.trivia_parenthesis, Scan.trivia_parenthesis]
    exact ⟨rfl, .inr ⟨'(', w, rfl, fun _ => hargs⟩⟩
  | @other c w hc hblank hn =>
    rw [List.cons_append, List.cons_append, trivia_of_none hn hblank,
      trivia_of_none (comment?_blanked hn) hblank]
    exact ⟨rfl, .inr ⟨c, w, rfl, fun h => absurd h hc⟩⟩

end Lexeme

/-- The gap is taken whatever stands behind the parenthesis. -/
theorem Gap.trivia_eq {gap : List Char} (h : Gap gap) (s : List Char) :
    Lexeme.trivia (gap ++ '(' :: s) = gap.length := by
  have hblank {c : Char} {t : List Char} (hc : isCodeBlank c = true) :
      Lexeme.trivia (c :: t) = Lexeme.trivia t + 1 := by
    refine Lexeme.trivia_of_isCodeBlank hc (Lexeme.comment?_of_ne ?_ t)
    rintro rfl
    cases hc
  induction h with
  | nil => exact Scan.trivia_parenthesis s
  | blank hc _ ih => rw [List.cons_append, hblank hc, ih, List.length_cons]
  | @line body gap hbody hends _ ih =>
    have hcomment : Lexeme.comment? ('/' :: '/' :: (body ++ '\n' :: (gap ++ '(' :: s))) =
        some (body.length + 2) := by
      show some (Lexeme.lineComment _ + 2) = _
      rw [Lexeme.lineComment_of_continued hbody hends]
    have hdrop : ('/' :: '/' :: (body ++ '\n' :: (gap ++ '(' :: s))).drop (body.length + 2) =
        '\n' :: (gap ++ '(' :: s) := by simp
    simp only [List.cons_append, List.append_assoc]
    rw [Lexeme.trivia_of_comment hcomment, hdrop, hblank rfl, ih]
    simp
    omega
  | @block body gap hbody _ ih =>
    have hcomment : Lexeme.comment? ('/' :: '*' :: (body ++ '*' :: '/' :: (gap ++ '(' :: s))) =
        some (body.length + 4) := by
      show some (Lexeme.blockComment _ + 2) = _
      rw [Lexeme.blockComment_append_mark hbody]
    have hdrop : ('/' :: '*' :: (body ++ '*' :: '/' :: (gap ++ '(' :: s))).drop (body.length + 4) =
        gap ++ '(' :: s := by
      show (body ++ (['*', '/'] ++ (gap ++ '(' :: s))).drop (body.length + 2) = _
      rw [List.drop_length_add_append]
      rfl
    simp only [List.cons_append, List.append_assoc]
    rw [Lexeme.trivia_of_comment hcomment, hdrop, ih]
    simp
    omega

end FlashStrings
