import FlashStrings.Proofs.ByteScan.Offsets
import FlashStrings.Proofs.Source.Appended
import FlashStrings.Proofs.Text.Class
import FlashStrings.Proofs.Text.Quoted
import FlashStrings.Proofs.Text.Trim
import Mathlib.Data.List.TakeWhile

/-!
# Ends of lexemes, by bytes and by characters

A literal, a comment, white space, the line of a directive and a raw string end at the offset
behind the characters that `Lexeme` takes of them (`At.literalEnd?_eq` and those below).
Only a lexeme of one character may end inside of this character, for the scan takes one byte
of it; what goes on from there ends where it ends from behind the character
(`At.skip_lexeme`).
-/

namespace FlashStrings

namespace ByteScan

variable {text s : List Char} {i : Nat} {bytes : Bytes} {c : Char}

/-! ## Classes -/

theorem isAscii_of_isNameChar (h : isNameChar c = true) : isAscii c = true := by
  have hle : c.toNat ≤ 122 := (toNat_of_isNameChar h).2
  exact decide_eq_true (by omega)

theorem isAscii_of_isLineBlank (h : isLineBlank c = true) : isAscii c = true := by
  simp only [isLineBlank, Bool.or_eq_true, beq_iff_eq] at h
  rcases h with rfl | rfl <;> rfl

theorem isAscii_of_isCodeBlank (h : isCodeBlank c = true) : isAscii c = true := by
  simp only [isCodeBlank, Bool.or_eq_true, beq_iff_eq] at h
  rcases h with (((rfl | rfl) | rfl) | rfl) | rfl <;> rfl

/-! ## Names -/

theorem skipWhile_of_none {p : Char → Bool} (h : byteAt? bytes i = none) :
    skipWhile p bytes i = i := by
  rw [skipWhile]
  split
  · rfl
  · next heq => simp [h] at heq

theorem skipWhile_of_some {p : Char → Bool} (h : byteAt? bytes i = some c) :
    skipWhile p bytes i = if p c then skipWhile p bytes (i + 1) else i := by
  rw [skipWhile]
  split
  · next heq => simp [h] at heq
  · next heq =>
    obtain rfl := Option.some.inj (h.symm.trans heq)
    rfl

theorem At.skipWhile_eq {p : Char → Bool} (hp : ∀ c, p c = true → isAscii c = true)
    (h : At text i s) : skipWhile p (utf8 text) i = i + byteSize (s.takeWhile p) := by
  induction s generalizing i with
  | nil => exact skipWhile_of_none h.byteAt?_nil
  | cons c s ih =>
    rw [skipWhile_of_some h.byteAt?_cons, apply_lead hp]
    cases hc : p c with
    | false => simp [hc]
    | true =>
      rw [if_pos rfl, ih (h.cons_of_isAscii (hp c hc)), List.takeWhile_cons_of_pos hc,
        byteSize_cons, utf8Size_of_isAscii (hp c hc), Nat.add_assoc]

/-! ## Literals -/

theorem quotedEnd?_of_none {q : Char} (h : byteAt? bytes i = none) :
    quotedEnd? q bytes i = none := by
  rw [quotedEnd?]
  split
  · rfl
  · next heq => simp [h] at heq

theorem quotedEnd?_of_some {q : Char} (h : byteAt? bytes i = some c) :
    quotedEnd? q bytes i =
      if c = '\\' then quotedEnd? q bytes (i + 2)
      else if c = '\n' then none
      else if c = q then some (i + 1)
      else quotedEnd? q bytes (i + 1) := by
  rw [quotedEnd?]
  split
  · next heq => simp [h] at heq
  · next heq =>
    obtain rfl := Option.some.inj (h.symm.trans heq)
    rfl

theorem quotedEnd?_of_wide {q : Char} (hq : isAscii q = true) {j : Nat} {d : Char}
    (h : byteAt? bytes j = some d) (hd : isAscii d = false) :
    quotedEnd? q bytes j = quotedEnd? q bytes (j + 1) := by
  rw [quotedEnd?_of_some h, if_neg, if_neg, if_neg]
  · rintro rfl
    simp [hq] at hd
  · rintro rfl
    cases hd
  · rintro rfl
    cases hd

theorem At.quotedEnd?_eq {q : Char} (hq : isAscii q = true) (h : At text i s) :
    quotedEnd? q (utf8 text) i =
      (quoted? q s).map fun found => i + byteSize found.1 + 1 := by
  have hwide : ∀ j d, byteAt? (utf8 text) j = some d → isAscii d = false →
      quotedEnd? q (utf8 text) j = quotedEnd? q (utf8 text) (j + 1) :=
    fun j d => quotedEnd?_of_wide hq
  fun_induction quoted? q s generalizing i with
  | case1 => exact quotedEnd?_of_none h.byteAt?_nil
  | case2 =>
    -- The byte that the backslash takes along is behind the end of the text.
    have hlen := byteAt?_eq_none_iff.1 (h.cons_of_isAscii rfl).byteAt?_nil
    rw [quotedEnd?_of_some (h.byteAt?_of_isAscii rfl), if_pos rfl,
      quotedEnd?_of_none (byteAt?_eq_none_iff.2 (Nat.le_succ_of_le hlen))]
    rfl
  | case3 c s ih =>
    have hnext := h.cons_of_isAscii rfl
    rw [quotedEnd?_of_some (h.byteAt?_of_isAscii rfl), if_pos rfl, hnext.skip hwide, ih hnext.cons,
      Option.map_map]
    refine Option.map_congr fun found _ => ?_
    simp only [Function.comp, byteSize_cons, utf8Size_of_isAscii (c := '\\') rfl]
    omega
  | case4 s hlone hescape =>
    rw [quotedEnd?_of_some (h.byteAt?_of_isAscii rfl)]
    simp
  | case5 s hlone hescape hnewline =>
    rw [quotedEnd?_of_some (h.byteAt?_of_isAscii hq), if_neg (ne_backslash_of_alone hlone hescape),
      if_neg hnewline, if_pos rfl]
    rfl
  | case6 c s hlone hescape hnewline hquote ih =>
    have hnext : quotedEnd? q (utf8 text) i = quotedEnd? q (utf8 text) (i + 1) := by
      rw [quotedEnd?_of_some h.byteAt?_cons, if_neg, if_neg, if_neg]
      · exact fun he => hquote ((lead_eq_iff hq).1 he)
      · exact fun he => hnewline ((lead_eq_iff rfl).1 he)
      · exact fun he => ne_backslash_of_alone hlone hescape ((lead_eq_iff rfl).1 he)
    rw [hnext, h.skip hwide, ih h.cons, Option.map_map]
    refine Option.map_congr fun found _ => ?_
    simp only [Function.comp, byteSize_cons]
    omega

theorem At.literalEnd?_cons {q : Char} (h : At text i (q :: s)) (hq : q = '"' ∨ q = '\'') :
    literalEnd? (utf8 text) i =
      (quoted? q s).map fun found => i + byteSize (q :: (found.1 ++ [q])) := by
  have hascii : isAscii q = true := by rcases hq with rfl | rfl <;> rfl
  rw [literalEnd?, h.byteAt?_of_isAscii hascii]
  show (if _ then _ else _) = _
  rw [if_pos hq, (h.cons_of_isAscii hascii).quotedEnd?_eq hascii]
  refine Option.map_congr fun found _ => ?_
  show i + 1 + byteSize found.1 + 1 = i + byteSize (q :: (found.1 ++ [q]))
  rw [byteSize_cons_of_isAscii hascii, byteSize_append, byteSize_cons_of_isAscii hascii,
    byteSize_nil]
  omega

theorem literalEnd?_of_ne (h : byteAt? bytes i = some c) (hc : ¬(c = '"' ∨ c = '\'')) :
    literalEnd? bytes i = none := by
  rw [literalEnd?, h]
  exact if_neg hc

/-- A closed literal ends where it ends among the characters. -/
theorem At.literalEnd?_eq (h : At text i s) :
    literalEnd? (utf8 text) i = (Lexeme.literal? s).map fun n => i + byteSize (s.take n) := by
  cases s with
  | nil => rw [literalEnd?, h.byteAt?_nil]; rfl
  | cons q s =>
    rw [Lexeme.literal?]
    split
    · next hq =>
      rw [h.literalEnd?_cons hq, Option.map_map]
      refine Option.map_congr fun found hbody => ?_
      obtain ⟨body, rest⟩ := found
      show _ = i + byteSize ((q :: s).take (body.length + 1 + 1))
      rw [quoted?_eq_some hbody, List.take_succ_cons, List.take_length_add_append,
        List.take_succ_cons, List.take_zero]
    · next hq =>
      rw [literalEnd?_of_ne h.byteAt?_cons, Option.map_none]
      rwa [lead_eq_iff rfl, lead_eq_iff rfl]

theorem literalEnd?_of_wide {j : Nat} {d : Char} (h : byteAt? bytes j = some d)
    (hd : isAscii d = false) : literalEnd? bytes j = none := by
  refine literalEnd?_of_ne h ?_
  rintro (rfl | rfl) <;> cases hd

/-! ## Comments -/

theorem At.continuationEnd?_newline (h : At text i ('\\' :: '\n' :: s)) :
    continuationEnd? (utf8 text) i = some (i + 2) := by
  rw [continuationEnd?, if_pos (h.byteAt?_of_isAscii rfl),
    if_pos ((h.cons_of_isAscii rfl).byteAt?_of_isAscii rfl)]

theorem At.continuationEnd?_return (h : At text i ('\\' :: '\r' :: '\n' :: s)) :
    continuationEnd? (utf8 text) i = some (i + 3) := by
  have hreturn := h.cons_of_isAscii rfl
  have hnewline := hreturn.cons_of_isAscii rfl
  rw [continuationEnd?, if_pos (h.byteAt?_of_isAscii rfl), hreturn.byteAt?_of_isAscii rfl,
    hnewline.byteAt?_of_isAscii rfl]
  rfl

/-- Where no line is continued among the characters, none is among the bytes. -/
theorem At.continuationEnd?_eq_none (h : At text i (c :: s))
    (hnewline : ∀ t, c = '\\' → s = '\n' :: t → False)
    (hreturn : ∀ t, c = '\\' → s = '\r' :: '\n' :: t → False) :
    continuationEnd? (utf8 text) i = none := by
  rw [continuationEnd?]
  split
  · next hc =>
    obtain rfl : c = '\\' := by simpa using (h.byteAt?_eq_some_iff rfl).1 hc
    have hnext := h.cons_of_isAscii rfl
    rw [if_neg, if_neg]
    · rintro ⟨hr, hn⟩
      obtain ⟨t, rfl⟩ := List.head?_eq_some_iff.1 ((hnext.byteAt?_eq_some_iff rfl).1 hr)
      obtain ⟨t, rfl⟩ := List.head?_eq_some_iff.1
        (((hnext.cons_of_isAscii rfl).byteAt?_eq_some_iff rfl).1 hn)
      exact hreturn t rfl rfl
    · intro hn
      obtain ⟨t, rfl⟩ := List.head?_eq_some_iff.1 ((hnext.byteAt?_eq_some_iff rfl).1 hn)
      exact hnewline t rfl rfl
  · rfl

theorem continuationEnd?_of_wide {j : Nat} {d : Char} (h : byteAt? bytes j = some d)
    (hd : isAscii d = false) : continuationEnd? bytes j = none := by
  rw [continuationEnd?, if_neg]
  intro hslash
  obtain rfl := Option.some.inj (h.symm.trans hslash)
  cases hd

theorem lineCommentEnd_of_none (h : byteAt? bytes i = none) :
    lineCommentEnd bytes i = bytes.length := by
  rw [lineCommentEnd]
  split
  · rfl
  · next heq => simp [h] at heq

theorem lineCommentEnd_of_some (h : byteAt? bytes i = some c) :
    lineCommentEnd bytes i = ((continuationEnd? bytes i).map (lineCommentEnd bytes)).getD
      (if c = '\n' then i else lineCommentEnd bytes (i + 1)) := by
  rw [lineCommentEnd]
  split
  · next heq => simp [h] at heq
  · next heq =>
    obtain rfl := Option.some.inj (h.symm.trans heq)
    split
    · next hc => simp [hc]
    · next hc => simp [hc]

theorem lineCommentEnd_of_wide {j : Nat} {d : Char} (h : byteAt? bytes j = some d)
    (hd : isAscii d = false) : lineCommentEnd bytes j = lineCommentEnd bytes (j + 1) := by
  rw [lineCommentEnd_of_some h, continuationEnd?_of_wide h hd]
  refine if_neg ?_
  rintro rfl
  cases hd

theorem At.lineCommentEnd_eq (h : At text i s) :
    lineCommentEnd (utf8 text) i = i + byteSize (s.take (Lexeme.lineComment s)) := by
  fun_induction Lexeme.lineComment s generalizing i with
  | case1 => rw [lineCommentEnd_of_none h.byteAt?_nil]; exact h.add_byteSize.symm
  | case2 s ih =>
    have hnext := h.drop 2
    rw [lineCommentEnd_of_some (h.byteAt?_of_isAscii rfl), h.continuationEnd?_newline,
      Nat.add_comm (Lexeme.lineComment s), byteSize_take_add, ← Nat.add_assoc]
    exact ih hnext
  | case3 s ih =>
    have hnext := h.drop 3
    rw [lineCommentEnd_of_some (h.byteAt?_of_isAscii rfl), h.continuationEnd?_return,
      Nat.add_comm (Lexeme.lineComment s), byteSize_take_add, ← Nat.add_assoc]
    exact ih hnext
  | case4 s hnewline hreturn =>
    rw [lineCommentEnd_of_some (h.byteAt?_of_isAscii rfl),
      h.continuationEnd?_eq_none hnewline hreturn]
    rfl
  | case5 c s hnewline hreturn hne ih =>
    have hnext : lineCommentEnd (utf8 text) i = lineCommentEnd (utf8 text) (i + 1) := by
      rw [lineCommentEnd_of_some h.byteAt?_cons, h.continuationEnd?_eq_none hnewline hreturn]
      exact if_neg fun he => hne ((lead_eq_iff rfl).1 he)
    rw [hnext, h.skip fun j d => lineCommentEnd_of_wide, ih h.cons, List.take_succ_cons,
      byteSize_cons, Nat.add_assoc]

theorem blockCommentEnd_of_none (h : byteAt? bytes (i + 1) = none) :
    blockCommentEnd bytes i = bytes.length := by
  rw [blockCommentEnd]
  split
  · rfl
  · next heq => simp [h] at heq

theorem blockCommentEnd_of_some (h : byteAt? bytes (i + 1) = some c) :
    blockCommentEnd bytes i =
      if byteAt? bytes i = some '*' ∧ c = '/' then i + 2 else blockCommentEnd bytes (i + 1) := by
  rw [blockCommentEnd]
  split
  · next heq => simp [h] at heq
  · next heq =>
    obtain rfl := Option.some.inj (h.symm.trans heq)
    rfl

theorem blockCommentEnd_succ
    (h : ¬(byteAt? bytes i = some '*' ∧ byteAt? bytes (i + 1) = some '/')) :
    blockCommentEnd bytes i = blockCommentEnd bytes (i + 1) := by
  cases hnext : byteAt? bytes (i + 1) with
  | none =>
    have hlen := byteAt?_eq_none_iff.1 hnext
    rw [blockCommentEnd_of_none hnext,
      blockCommentEnd_of_none (byteAt?_eq_none_iff.2 (Nat.le_succ_of_le hlen))]
  | some c =>
    rw [blockCommentEnd_of_some hnext, if_neg]
    rintro ⟨hstar, rfl⟩
    exact h ⟨hstar, hnext⟩

theorem blockCommentEnd_of_wide {j : Nat} {d : Char} (h : byteAt? bytes j = some d)
    (hd : isAscii d = false) : blockCommentEnd bytes j = blockCommentEnd bytes (j + 1) := by
  refine blockCommentEnd_succ ?_
  rintro ⟨hstar, -⟩
  obtain rfl := Option.some.inj (h.symm.trans hstar)
  cases hd

theorem At.blockCommentEnd_eq (h : At text i s) :
    blockCommentEnd (utf8 text) i = i + byteSize (s.take (Lexeme.blockComment s)) := by
  fun_induction Lexeme.blockComment s generalizing i with
  | case1 =>
    have hlen := byteAt?_eq_none_iff.1 h.byteAt?_nil
    rw [blockCommentEnd_of_none (byteAt?_eq_none_iff.2 (Nat.le_succ_of_le hlen))]
    exact h.add_byteSize.symm
  | case2 s =>
    have hslash := h.cons_of_isAscii rfl
    rw [blockCommentEnd_of_some (hslash.byteAt?_of_isAscii rfl),
      if_pos ⟨h.byteAt?_of_isAscii rfl, rfl⟩]
    rfl
  | case3 c s hopen ih =>
    have hnext : blockCommentEnd (utf8 text) i = blockCommentEnd (utf8 text) (i + 1) := by
      refine blockCommentEnd_succ ?_
      rintro ⟨hstar, hslash⟩
      obtain rfl : c = '*' := by simpa using (h.byteAt?_eq_some_iff rfl).1 hstar
      obtain ⟨t, rfl⟩ := List.head?_eq_some_iff.1
        (((h.cons_of_isAscii rfl).byteAt?_eq_some_iff rfl).1 hslash)
      exact hopen t rfl rfl
    rw [hnext, h.skip fun j d => blockCommentEnd_of_wide, ih h.cons, List.take_succ_cons,
      byteSize_cons, Nat.add_assoc]

/-- A comment ends where it ends among the characters. -/
theorem At.commentEnd?_eq (h : At text i s) :
    commentEnd? (utf8 text) i = (Lexeme.comment? s).map fun n => i + byteSize (s.take n) := by
  unfold Lexeme.comment?
  split
  · next s =>
    have hsecond := h.cons_of_isAscii rfl
    rw [commentEnd?, if_pos (h.byteAt?_of_isAscii rfl), hsecond.byteAt?_of_isAscii rfl]
    show some (lineCommentEnd (utf8 text) (i + 1 + 1)) = _
    rw [(hsecond.cons_of_isAscii rfl).lineCommentEnd_eq, Option.map_some, List.take_succ_cons,
      List.take_succ_cons, byteSize_cons_of_isAscii rfl, byteSize_cons_of_isAscii rfl]
    congr 1
    omega
  · next s =>
    have hsecond := h.cons_of_isAscii rfl
    rw [commentEnd?, if_pos (h.byteAt?_of_isAscii rfl), hsecond.byteAt?_of_isAscii rfl]
    show some (blockCommentEnd (utf8 text) (i + 1 + 1)) = _
    rw [(hsecond.cons_of_isAscii rfl).blockCommentEnd_eq, Option.map_some, List.take_succ_cons,
      List.take_succ_cons, byteSize_cons_of_isAscii rfl, byteSize_cons_of_isAscii rfl]
    congr 1
    omega
  · next hline hblock =>
    rw [commentEnd?]
    split
    · next hfirst =>
      obtain ⟨t, rfl⟩ := List.head?_eq_some_iff.1 ((h.byteAt?_eq_some_iff rfl).1 hfirst)
      have hsecond := h.cons_of_isAscii rfl
      split
      · next hmark =>
        obtain ⟨u, rfl⟩ := List.head?_eq_some_iff.1 ((hsecond.byteAt?_eq_some_iff rfl).1 hmark)
        exact absurd rfl (hline u)
      · next hmark =>
        obtain ⟨u, rfl⟩ := List.head?_eq_some_iff.1 ((hsecond.byteAt?_eq_some_iff rfl).1 hmark)
        exact absurd rfl (hblock u)
      · rfl
    · rfl

theorem commentEnd?_of_wide {j : Nat} {d : Char} (h : byteAt? bytes j = some d)
    (hd : isAscii d = false) : commentEnd? bytes j = none := by
  rw [commentEnd?, if_neg]
  intro hslash
  obtain rfl := Option.some.inj (h.symm.trans hslash)
  cases hd

/-! ## Lexemes -/

theorem lexemeEnd_of_wide {j : Nat} {d : Char} (h : byteAt? bytes j = some d)
    (hd : isAscii d = false) : lexemeEnd bytes j = j + 1 := by
  rw [lexemeEnd, commentEnd?_of_wide h hd, literalEnd?_of_wide h hd]
  rfl

/-- A comment and a closed literal end where they end among the characters; else the
lexeme is the first byte of a character. -/
theorem At.lexemeEnd_eq (h : At text i (c :: s)) :
    lexemeEnd (utf8 text) i = i + byteSize ((c :: s).take (Lexeme.width (c :: s))) ∨
      Lexeme.width (c :: s) = 1 ∧ lexemeEnd (utf8 text) i = i + 1 := by
  rw [lexemeEnd, Lexeme.width, h.commentEnd?_eq, h.literalEnd?_eq]
  cases Lexeme.comment? (c :: s) with
  | some n => exact .inl rfl
  | none =>
    cases Lexeme.literal? (c :: s) with
    | some n => exact .inl rfl
    | none => exact .inr ⟨rfl, rfl⟩

/-- A function that passes over the bytes outside of the ASCII range goes from the end of
a lexeme to where it ends among the characters. -/
theorem At.skip_lexeme {β : Type} {F : Nat → β} (h : At text i (c :: s))
    (hF : ∀ j d, byteAt? (utf8 text) j = some d → isAscii d = false → F j = F (j + 1)) :
    F (lexemeEnd (utf8 text) i) =
      F (i + byteSize ((c :: s).take (Lexeme.width (c :: s)))) := by
  rcases h.lexemeEnd_eq with hend | ⟨hwidth, hend⟩
  · rw [hend]
  · rw [hend, hwidth, h.skip hF, List.take_succ_cons, List.take_zero, byteSize_cons, byteSize_nil,
      Nat.add_zero]

/-! ## White space and lines -/

theorem triviaEnd_of_none (h : byteAt? bytes i = none) : triviaEnd bytes i = i := by
  rw [triviaEnd]
  split
  · rfl
  · next heq => simp [h] at heq

theorem triviaEnd_of_isCodeBlank (h : byteAt? bytes i = some c) (hc : isCodeBlank c = true) :
    triviaEnd bytes i = triviaEnd bytes (i + 1) := by
  rw [triviaEnd]
  split
  · next heq => simp [h] at heq
  · next heq =>
    obtain rfl := Option.some.inj (h.symm.trans heq)
    rw [if_pos hc]

theorem triviaEnd_of_not_isCodeBlank (h : byteAt? bytes i = some c) (hc : isCodeBlank c = false) :
    triviaEnd bytes i = ((commentEnd? bytes i).map (triviaEnd bytes)).getD i := by
  rw [triviaEnd]
  split
  · next heq => simp [h] at heq
  · next heq =>
    obtain rfl := Option.some.inj (h.symm.trans heq)
    rw [hc, if_neg Bool.false_ne_true]
    split
    · next hcomment => simp [hcomment]
    · next hcomment => simp [hcomment]

theorem At.triviaEnd_eq (h : At text i s) :
    triviaEnd (utf8 text) i = i + byteSize (s.take (Lexeme.trivia s)) := by
  fun_induction Lexeme.trivia s generalizing i with
  | case1 => exact triviaEnd_of_none h.byteAt?_nil
  | case2 c s n hcomment hpos ih =>
    have hblank : isCodeBlank (lead c) = false := by
      rcases Lexeme.comment?_cases hcomment with ⟨t, ht, -⟩ | ⟨t, ht, -⟩ <;>
        exact (List.cons.inj ht).1 ▸ rfl
    rw [triviaEnd_of_not_isCodeBlank h.byteAt?_cons hblank, h.commentEnd?_eq, hcomment]
    show triviaEnd (utf8 text) (i + byteSize ((c :: s).take n)) = _
    rw [ih (h.drop n), byteSize_take_add, Nat.add_assoc]
  | case3 c s hcomment hblank ih =>
    have hascii := isAscii_of_isCodeBlank hblank
    rw [triviaEnd_of_isCodeBlank (h.byteAt?_of_isAscii hascii) hblank,
      ih (h.cons_of_isAscii hascii), List.take_succ_cons, byteSize_cons_of_isAscii hascii]
    omega
  | case4 c s hcomment hblank =>
    rw [triviaEnd_of_not_isCodeBlank h.byteAt?_cons, h.commentEnd?_eq, hcomment]
    · rfl
    · rw [apply_lead fun d => isAscii_of_isCodeBlank]
      exact eq_false_of_ne_true hblank

theorem logicalLineEnd_of_none (h : byteAt? bytes i = none) :
    logicalLineEnd bytes i = bytes.length := by
  rw [logicalLineEnd]
  split
  · rfl
  · next heq => simp [h] at heq

theorem logicalLineEnd_of_some (h : byteAt? bytes i = some c) :
    logicalLineEnd bytes i = ((continuationEnd? bytes i).map (logicalLineEnd bytes)).getD
      (if c = '\n' then i else logicalLineEnd bytes (lexemeEnd bytes i)) := by
  rw [logicalLineEnd]
  split
  · next heq => simp [h] at heq
  · next heq =>
    obtain rfl := Option.some.inj (h.symm.trans heq)
    split
    · next hc => simp [hc]
    · next hc => simp [hc]

theorem logicalLineEnd_of_wide {j : Nat} {d : Char} (h : byteAt? bytes j = some d)
    (hd : isAscii d = false) : logicalLineEnd bytes j = logicalLineEnd bytes (j + 1) := by
  rw [logicalLineEnd_of_some h, continuationEnd?_of_wide h hd, ← lexemeEnd_of_wide h hd]
  refine if_neg ?_
  rintro rfl
  cases hd

theorem At.logicalLineEnd_eq (h : At text i s) :
    logicalLineEnd (utf8 text) i = i + byteSize (s.take (Lexeme.logicalLine s)) := by
  fun_induction Lexeme.logicalLine s generalizing i with
  | case1 => rw [logicalLineEnd_of_none h.byteAt?_nil]; exact h.add_byteSize.symm
  | case2 s ih =>
    have hnext := h.drop 2
    rw [logicalLineEnd_of_some (h.byteAt?_of_isAscii rfl), h.continuationEnd?_newline,
      Nat.add_comm (Lexeme.logicalLine s), byteSize_take_add, ← Nat.add_assoc]
    exact ih hnext
  | case3 s ih =>
    have hnext := h.drop 3
    rw [logicalLineEnd_of_some (h.byteAt?_of_isAscii rfl), h.continuationEnd?_return,
      Nat.add_comm (Lexeme.logicalLine s), byteSize_take_add, ← Nat.add_assoc]
    exact ih hnext
  | case4 s hnewline hreturn =>
    rw [logicalLineEnd_of_some (h.byteAt?_of_isAscii rfl),
      h.continuationEnd?_eq_none hnewline hreturn]
    rfl
  | case5 c s hnewline hreturn hne hpos ih =>
    have hnext : logicalLineEnd (utf8 text) i =
        logicalLineEnd (utf8 text) (lexemeEnd (utf8 text) i) := by
      rw [logicalLineEnd_of_some h.byteAt?_cons, h.continuationEnd?_eq_none hnewline hreturn]
      exact if_neg fun he => hne ((lead_eq_iff rfl).1 he)
    rw [hnext, h.skip_lexeme fun j d => logicalLineEnd_of_wide, ih (h.drop _),
      byteSize_take_add, Nat.add_assoc]

/-! ## Words and raw strings -/

variable {word : List Char}

theorem find?_of_notMem {mark : Char} (h : mark ∉ s) : find? [mark] s = none := by
  induction s with
  | nil => rfl
  | cons c s ih =>
    simp only [List.mem_cons, not_or] at h
    rw [find?, ih h.2]
    simp [h.1]

theorem find?_append_cons {mark : Char} (h : mark ∉ s) (t : List Char) :
    find? [mark] (s ++ mark :: t) = some (byteSize s) := by
  induction s with
  | nil => simp [find?]
  | cons c s ih =>
    simp only [List.mem_cons, not_or] at h
    rw [List.cons_append, find?, ih h.2]
    simp [h.1]

/-- A word is found where its first occurrence ends among the characters. -/
theorem find?_cases (hword : word ≠ []) (s : List Char) :
    (∃ front rest, s = front ++ (word ++ rest) ∧ find? word s = some (byteSize front) ∧
        Lexeme.through word s = front.length + word.length) ∨
      find? word s = none ∧ Lexeme.through word s = s.length := by
  induction s with
  | nil =>
    refine .inr ⟨?_, rfl⟩
    rw [find?, if_neg]
    simpa using hword
  | cons c s ih =>
    rw [find?, Lexeme.through]
    split
    · next hprefix =>
      obtain ⟨rest, hrest⟩ := List.isPrefixOf_iff_prefix.1 hprefix
      exact .inl ⟨[], rest, hrest.symm, rfl, (Nat.zero_add _).symm⟩
    · rcases ih with ⟨front, rest, rfl, hfind, hthrough⟩ | ⟨hfind, hthrough⟩
      · refine .inl ⟨c :: front, rest, rfl, ?_, ?_⟩
        · rw [hfind, Option.map_some, byteSize_cons]
        · rw [hthrough, List.length_cons]
          omega
      · exact .inr ⟨by rw [hfind, Option.map_none], by rw [hthrough, List.length_cons]⟩

/-- The text from an offset on can be taken. -/
theorem At.slice?_rest (h : At text i s) : slice? text i (byteSize text) = some s := by
  rw [← h.add_byteSize]
  exact At.slice?_append (s := []) (by rwa [List.append_nil])

theorem utf8ByteSize_ofList (s : List Char) : (String.ofList s).utf8ByteSize = byteSize s := by
  show (List.utf8Encode s).size = byteSize s
  simp [List.utf8Encode, byteSize, utf8]

/-- A raw string ends where it ends among the characters. -/
theorem At.rawStringEnd?_eq (h : At text i ('"' :: s)) :
    rawStringEnd? text i = some (i + 1 + byteSize (s.take (Lexeme.rawString s))) := by
  have hrest := h.cons_of_isAscii rfl
  rw [rawStringEnd?, hrest.slice?_rest, Option.bind_eq_bind, Option.bind_some]
  by_cases hmem : '(' ∈ s
  · obtain ⟨delimiter, body, rfl, hmark⟩ := List.eq_append_cons_of_mem hmem
    have hbody : At text (i + 1 + byteSize delimiter + 1) body :=
      hrest.append.cons_of_isAscii rfl
    have hdelimiter :
        slice? (delimiter ++ '(' :: body) 0 (byteSize delimiter) = some delimiter := by
      simpa using (At.start (delimiter ++ '(' :: body)).slice?_append
    rw [find?_append_cons hmark, Lexeme.rawString_append_cons hmark, utf8ByteSize_ofList]
    simp only [hdelimiter, Option.bind_some]
    split
    · rfl
    · have hsize : ∀ n, byteSize ((delimiter ++ '(' :: body).take (delimiter.length + 1 + n)) =
          byteSize delimiter + 1 + byteSize (body.take n) := fun n => by
        rw [byteSize_take_add, List.take_length_add_append, byteSize_append]
        simp [byteSize_cons_of_isAscii (c := '(') rfl]
      rw [hbody.slice?_rest, Option.bind_some, hsize]
      rcases find?_cases (show ')' :: delimiter ++ ['"'] ≠ [] by simp) body with
        ⟨front, rest, rfl, hfind, hthrough⟩ | ⟨hfind, hthrough⟩
      · rw [hfind, hthrough, List.take_length_add_append, List.take_left, byteSize_append front]
        show some _ = some _
        congr 1
        omega
      · rw [hfind, hthrough, List.take_length, ← hbody.add_byteSize]
        show some _ = some _
        congr 1
        omega
  · rw [find?_of_notMem hmem, Lexeme.rawString_of_notMem hmem]
    rfl

end ByteScan

end FlashStrings
