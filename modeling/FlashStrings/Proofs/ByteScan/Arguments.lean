import FlashStrings.ByteScan.Scan
import FlashStrings.Proofs.ByteScan.Ends
import FlashStrings.Proofs.Invocation.ReadBack
import FlashStrings.Proofs.Invocation.Words

/-!
# Arguments by byte offsets

The text of the arguments is taken in parts, since a comment gives one space.  It is the
text of the pieces that `Argument.extract` collects (`At.arguments?_eq`), and it is read
back as these pieces (`readsBack_of_collect`).  So it gives the same value
(`readText_text`), and the same names are mentioned in it (`mentions?_text`).
-/

namespace FlashStrings

namespace ByteScan

open Argument

variable {text s : List Char} {i : Nat} {c : Char}

/-! ## Collecting -/

section Collect

variable {depth start : Nat} {args : List Char}

theorem collect?_of_none (h : byteAt? (utf8 text) i = none) :
    collect? text depth start i args = some (.error .unbalancedParentheses) := by
  rw [collect?]
  split
  · rfl
  · next heq => simp [h] at heq

theorem collect?_of_some (h : byteAt? (utf8 text) i = some c) :
    collect? text depth start i args =
      if c = '(' then collect? text (depth + 1) start (i + 1) args
      else if c = ')' then
        (pred? depth).bind fun depth =>
          if depth = 0 then
            (slice? text start i).bind fun part => some (.ok (args ++ part, i + 1))
          else collect? text depth start (i + 1) args
      else if c = '"' ∨ c = '\'' then
        (literalEnd? (utf8 text) i).elim (some (.error .unterminatedString)) fun j =>
          collect? text depth start j args
      else
        (commentEnd? (utf8 text) i).elim (collect? text depth start (i + 1) args) fun j =>
          (slice? text start i).bind fun part =>
            collect? text depth j j (args ++ part ++ [' ']) := by
  rw [collect?]
  split
  · next heq => simp [h] at heq
  · next heq =>
    obtain rfl := Option.some.inj (h.symm.trans heq)
    split
    · rfl
    split
    · rfl
    split
    · split
      · next hl => simp [hl]
      · next hl => simp [hl]
    · split
      · next hc => simp [hc]
      · next hc => simp [hc]

theorem collect?_of_wide {j : Nat} {d : Char} (h : byteAt? (utf8 text) j = some d)
    (hd : isAscii d = false) :
    collect? text depth start j args = collect? text depth start (j + 1) args := by
  rw [collect?_of_some h, if_neg, if_neg, if_neg, commentEnd?_of_wide h hd]
  · rfl
  · rintro (rfl | rfl) <;> cases hd
  · rintro rfl
    cases hd
  · rintro rfl
    cases hd

/-- Where the arguments are collected.  They are `full`, and stand at `base`.  Behind
`width` of their characters `s` is left.  Of the text of the pieces found so far `args` is
taken, and `part` is still to be taken, from `start` on. -/
structure Collecting (text full : List Char) (base start : Nat) (args part : List Char)
    (width : Nat) (found : List Piece) (s : List Char) : Prop where
  full_at : At text base full
  rest : full.drop width = s
  part_at : At text start (part ++ s)
  offset : start + byteSize part = base + byteSize (full.take width)
  taken : args ++ part = Argument.text found.reverse

namespace Collecting

variable {full part : List Char} {base width : Nat} {found : List Piece}

theorem at_rest (h : Collecting text full base start args part width found s) :
    At text (base + byteSize (full.take width)) s :=
  h.rest ▸ h.full_at.drop width

theorem slice?_part (h : Collecting text full base start args part width found s) :
    slice? text start (base + byteSize (full.take width)) = some part :=
  h.offset ▸ h.part_at.slice?_append

theorem take_add (h : full.drop width = s) (n : Nat) :
    full.take (width + n) = full.take width ++ s.take n := by
  rw [List.take_add, h]

theorem byteSize_take (h : Collecting text full base start args part width found s) (n : Nat) :
    base + byteSize (full.take (width + n)) =
      base + byteSize (full.take width) + byteSize (s.take n) := by
  rw [take_add h.rest, byteSize_append, Nat.add_assoc]

/-- One more piece is collected. -/
theorem piece {p : Piece}
    (h : Collecting text full base start args part width found (p.text ++ s)) :
    Collecting text full base start args (part ++ p.text) (width + p.text.length)
      (p :: found) s where
  full_at := h.full_at
  rest := by rw [← List.drop_drop, h.rest, List.drop_left]
  part_at := by rw [List.append_assoc]; exact h.part_at
  offset := by
    rw [h.byteSize_take, List.take_left, byteSize_append, ← Nat.add_assoc, h.offset]
  taken := by
    rw [← List.append_assoc, h.taken, List.reverse_cons]
    simp [Argument.text]

/-- A character that is a piece of its own is collected. -/
theorem char (h : Collecting text full base start args part width found (c :: s)) :
    Collecting text full base start args (part ++ [c]) (width + 1) (.char c :: found) s ∧
      base + byteSize (full.take (width + 1)) =
        base + byteSize (full.take width) + c.utf8Size :=
  ⟨piece (p := .char c) h, by simpa using h.byteSize_take 1⟩

/-- A comment gives one space, and what was in front of it is taken. -/
theorem comment (h : Collecting text full base start args part width found s) (n : Nat) :
    Collecting text full base (base + byteSize (full.take (width + n))) (args ++ part ++ [' ']) []
      (width + n) (.char ' ' :: found) (s.drop n) where
  full_at := h.full_at
  rest := by rw [← List.drop_drop, h.rest]
  part_at := by
    rw [h.byteSize_take]
    exact h.at_rest.drop n
  offset := rfl
  taken := by
    rw [List.append_nil, h.taken, List.reverse_cons]
    simp [Argument.text, Piece.text]

/-- The bytes give the text of the pieces that the characters give. -/
theorem collect?_eq (h : Collecting text full base start args part width found s) :
    collect? text (depth + 1) start (base + byteSize (full.take width)) args =
      some ((Argument.collect depth found width s).map fun read =>
        (Argument.text read.1, base + byteSize (full.take read.2))) := by
  have hat := h.at_rest
  fun_induction Argument.collect depth found width s generalizing start args part with
  | case1 => rw [collect?_of_none hat.byteAt?_nil]; rfl
  | case2 depth found width s ih =>
    obtain ⟨hnext, hsize⟩ := h.char
    rw [collect?_of_some (hat.byteAt?_of_isAscii rfl), if_pos rfl, ← ih hnext hnext.at_rest, hsize]
    rfl
  | case3 found width s =>
    obtain ⟨hnext, hsize⟩ := h.char
    rw [collect?_of_some (hat.byteAt?_of_isAscii rfl), if_neg (by decide), if_pos rfl, pred?,
      Option.bind_some, if_pos rfl, h.slice?_part, Option.bind_some, h.taken]
    show some (Except.ok _) = some (Except.ok (_, base + byteSize (full.take (width + 1))))
    rw [hsize]
    rfl
  | case4 found width s depth _ ih =>
    obtain ⟨hnext, hsize⟩ := h.char
    rw [collect?_of_some (hat.byteAt?_of_isAscii rfl), if_neg (by decide), if_pos rfl, pred?,
      Option.bind_some, if_neg (Nat.succ_ne_zero depth), ← ih hnext hnext.at_rest, hsize]
    rfl
  | case5 depth found width c s hopen hclose hquote content rest hcontent _ ih =>
    have hascii : isAscii c = true := by rcases hquote with rfl | rfl <;> rfl
    have hend := hat.literalEnd?_cons hquote
    rw [hcontent] at hend
    have htext : c :: s = (Piece.literal c content).text ++ rest := by
      rw [quoted?_eq_some hcontent]
      simp [Piece.text]
    rw [htext] at h
    have hlength : (Piece.literal c content).text.length = content.length + 2 := by
      simp [Piece.text]
    have hnext := h.piece
    have hsize := h.byteSize_take (Piece.literal c content).text.length
    rw [hlength, ← Nat.add_assoc] at hnext hsize
    rw [collect?_of_some (hat.byteAt?_of_isAscii hascii), if_neg hopen, if_neg hclose,
      if_pos hquote, hend, ← ih hnext hnext.at_rest, hsize, ← hlength, List.take_left]
    rfl
  | case6 depth found width c s hopen hclose hquote hcontent =>
    have hend := hat.literalEnd?_cons hquote
    have hascii : isAscii c = true := by rcases hquote with rfl | rfl <;> rfl
    rw [hcontent] at hend
    rw [collect?_of_some (hat.byteAt?_of_isAscii hascii), if_neg hopen, if_neg hclose,
      if_pos hquote, hend]
    rfl
  | case7 depth found width c s hopen hclose hquote n hn _ ih =>
    obtain rfl : c = '/' := Decidable.by_contra fun hne => by
      simp [Lexeme.comment?_of_ne hne] at hn
    have hnext := h.comment n
    rw [collect?_of_some (hat.byteAt?_of_isAscii rfl), if_neg hopen, if_neg hclose,
      if_neg hquote, hat.commentEnd?_eq, hn, Option.map_some, Option.elim_some, h.slice?_part,
      Option.bind_some, ← h.byteSize_take]
    exact ih hnext hnext.at_rest
  | case8 depth found width c s hopen hclose hquote hn ih =>
    obtain ⟨hnext, hsize⟩ := h.char
    have hstep : collect? text (depth + 1) start (base + byteSize (full.take width)) args =
        collect? text (depth + 1) start (base + byteSize (full.take width) + 1) args := by
      rw [collect?_of_some hat.byteAt?_cons, if_neg, if_neg, if_neg, hat.commentEnd?_eq, hn]
      · rfl
      · rwa [lead_eq_iff rfl, lead_eq_iff rfl]
      · rwa [lead_eq_iff rfl]
      · rwa [lead_eq_iff rfl]
    rw [hstep, ← ih hnext hnext.at_rest, hsize]
    exact hat.skip fun j d => collect?_of_wide

end Collecting

end Collect

/-- The arguments behind an opening parenthesis. -/
theorem At.arguments?_eq (h : At text i ('(' :: s)) :
    arguments? text i = some ((Argument.extract s).map fun read =>
      (Argument.text read.1, i + 1 + byteSize (s.take read.2))) := by
  have hstart : Collecting text s (i + 1) (i + 1) [] [] 0 [] s := {
    full_at := h.cons_of_isAscii rfl
    rest := rfl
    part_at := h.cons_of_isAscii rfl
    offset := rfl
    taken := rfl }
  exact hstart.collect?_eq

/-! ## Reading back -/

/-- Collected pieces are read off their text. -/
theorem readsBack_of_collect {depth width width' : Nat} {found ps : List Piece}
    (h : Argument.collect depth found width s = .ok (ps, width'))
    (hfound : ∀ p ∈ found, ReadsBack p) : ∀ p ∈ ps, ReadsBack p := by
  fun_induction Argument.collect depth found width s with
  | case1 => cases h
  | case2 depth found width s ih =>
    exact ih h (List.forall_mem_cons.2 ⟨by simp [ReadsBack], hfound⟩)
  | case3 found width s =>
    obtain ⟨rfl, -⟩ := Prod.mk.inj (Except.ok.inj h)
    exact fun p hp => hfound p (List.mem_reverse.1 hp)
  | case4 found width s depth _ ih =>
    exact ih h (List.forall_mem_cons.2 ⟨by simp [ReadsBack], hfound⟩)
  | case5 depth found width c s hopen hclose hquote content rest hcontent _ ih =>
    exact ih h (List.forall_mem_cons.2 ⟨⟨hquote, quoted?_body hcontent⟩, hfound⟩)
  | case6 => cases h
  | case7 depth found width c s _ _ _ n hn _ ih =>
    exact ih h (List.forall_mem_cons.2 ⟨by simp [ReadsBack], hfound⟩)
  | case8 depth found width c s hopen hclose hquote hn ih =>
    exact ih h (List.forall_mem_cons.2 ⟨hquote, hfound⟩)

/-- The text of the arguments gives what the pieces give. -/
theorem readText_text (settings : ScanSettings) (kind : RecordKind) {ps : List Piece}
    (h : ∀ p ∈ ps, ReadsBack p) :
    readText settings kind (Argument.text ps) = Scan.readArguments settings kind ps := by
  rw [readText, parseArguments, String.toList_ofList, read_text h]
  rfl

/-! ## Words -/

variable {names : List (List Char)} {ps qs : List Piece}

/-- Characters of a name go on with the word that has begun. -/
theorem mentions_append {word name : List Char} (h : ∀ c ∈ name, isNameChar c = true) :
    Argument.mentions names word (name.map .char ++ qs) =
      Argument.mentions names (name.reverse ++ word) qs := by
  induction name generalizing word with
  | nil => rfl
  | cons c name ih =>
    obtain ⟨hc, hname⟩ := List.forall_mem_cons.1 h
    rw [List.map_cons, List.cons_append, Argument.mentions, if_pos hc, ih hname,
      List.reverse_cons, List.append_assoc]
    rfl

/-- A word ends in front of a piece that belongs to no name. -/
theorem mentions_of_ended {word : List Char} (h : ∀ p, qs.head? = some p → p.inName = false) :
    Argument.mentions names word qs =
      (Argument.mentions.named names word || Argument.mentions names [] qs) := by
  cases qs with
  | nil => simp [Argument.mentions, Argument.mentions.named]
  | cons p qs =>
    have hp := h p rfl
    cases p with
    | literal q body => simp [Argument.mentions, Argument.mentions.named]
    | char c =>
      have hc : isNameChar c = false := hp
      simp [Argument.mentions, Argument.mentions.named, hc]

theorem mentionsFrom?_of_none {args : List Char} (h : byteAt? (utf8 args) i = none) :
    mentionsFrom? names args i = some false := by
  rw [mentionsFrom?]
  split
  · rfl
  · next heq => simp [h] at heq

theorem mentionsFrom?_of_some {args : List Char} (h : byteAt? (utf8 args) i = some c) :
    mentionsFrom? names args i =
      if c = '"' ∨ c = '\'' then
        mentionsFrom? names args ((literalEnd? (utf8 args) i).getD (byteSize args))
      else if isNameStart c then
        (slice? args i (nameEnd (utf8 args) i)).bind fun word =>
          if names.contains word then some true
          else mentionsFrom? names args (nameEnd (utf8 args) i)
      else if c.isDigit then mentionsFrom? names args (nameEnd (utf8 args) i)
      else mentionsFrom? names args (i + 1) := by
  rw [mentionsFrom?]
  split
  · next heq => simp [h] at heq
  · next heq =>
    obtain rfl := Option.some.inj (h.symm.trans heq)
    split
    · split
      · next hl => simp [hl]
      · next hl => simp [hl]
    · rfl

/-- A byte that belongs to no literal and to no name is stepped over. -/
theorem mentionsFrom?_of_other {args : List Char} (h : byteAt? (utf8 args) i = some c)
    (hquote : ¬(c = '"' ∨ c = '\'')) (hname : isNameChar c = false) :
    mentionsFrom? names args i = mentionsFrom? names args (i + 1) := by
  rw [isNameChar_eq, Bool.or_eq_false_iff] at hname
  rw [mentionsFrom?_of_some h, if_neg hquote, hname.1, hname.2]
  rfl

theorem mentionsFrom?_of_wide {args : List Char} {j : Nat} {d : Char}
    (h : byteAt? (utf8 args) j = some d) (hd : isAscii d = false) :
    mentionsFrom? names args j = mentionsFrom? names args (j + 1) := by
  refine mentionsFrom?_of_other h ?_ (eq_false_of_ne_true fun hname => ?_)
  · rintro (rfl | rfl) <;> cases hd
  · simp [isAscii_of_isNameChar hname] at hd

/-- The same names are mentioned in the text of pieces as among the pieces. -/
theorem At.mentionsFrom?_eq {args : List Char} (h : At args i (Argument.text ps))
    (hps : ∀ p ∈ ps, ReadsBack p) :
    mentionsFrom? names args i = some (Argument.mentions names [] ps) := by
  -- A name is taken at once, so the induction is on the number of pieces.
  induction hn : ps.length using Nat.strong_induction_on generalizing ps i with
  | _ n ih =>
    cases ps with
    | nil =>
      rw [mentionsFrom?_of_none h.byteAt?_nil]
      rfl
    | cons p ps =>
      obtain ⟨hp, htail⟩ := List.forall_mem_cons.1 hps
      cases p with
      | literal q body =>
        obtain ⟨hq, hbody⟩ := hp
        have hascii : isAscii q = true := by rcases hq with rfl | rfl <;> rfl
        rw [text_literal] at h
        have hend := h.literalEnd?_cons hq
        rw [hbody] at hend
        have hnext : At args (i + byteSize (q :: (body ++ [q]))) (Argument.text ps) :=
          At.append (by simpa using h)
        have hrest := ih ps.length (hn ▸ Nat.lt_succ_self _) hnext htail rfl
        rw [mentionsFrom?_of_some (h.byteAt?_of_isAscii hascii), if_pos hq, hend]
        exact hrest
      | char c =>
        cases hc : isNameChar c with
        | false =>
          have hstep : mentionsFrom? names args i = mentionsFrom? names args (i + 1) := by
            refine mentionsFrom?_of_other h.byteAt?_cons ?_ ?_
            · rw [lead_eq_iff rfl, lead_eq_iff rfl]
              exact hp
            · rw [apply_lead fun d => isAscii_of_isNameChar, hc]
          rw [hstep, h.skip fun j d => mentionsFrom?_of_wide,
            ih ps.length (hn ▸ Nat.lt_succ_self _) h.cons htail rfl]
          simp [Argument.mentions, Argument.mentions.named, hc]
        | true =>
          obtain ⟨name, qs, rfl, hname, hqs⟩ := exists_name ps
          have hname' : ∀ d ∈ c :: name, isNameChar d = true := List.forall_mem_cons.2 ⟨hc, hname⟩
          have hqs' : ∀ p ∈ qs, ReadsBack p := fun p hp => htail p (List.mem_append_right _ hp)
          have hat : At args i ((c :: name) ++ Argument.text qs) := by
            rwa [text_char, text_append, text_map_char] at h
          have hend : nameEnd (utf8 args) i = i + byteSize (c :: name) := by
            rw [nameEnd, hat.skipWhile_eq fun d => isAscii_of_isNameChar,
              takeWhile_text hname' hqs' hqs]
          have hlen : qs.length < n := by
            rw [← hn, List.length_cons, List.length_append]
            omega
          have hrest := ih qs.length hlen hat.append hqs' rfl
          have hmentions : Argument.mentions names [] (.char c :: (name.map .char ++ qs)) =
              (isNameStart c && names.contains (c :: name) || Argument.mentions names [] qs) := by
            refine (mentions_append hname').trans ?_
            rw [List.append_nil, mentions_of_ended hqs, Argument.mentions.named,
              List.reverse_reverse]
          rw [mentionsFrom?_of_some (hat.byteAt?_of_isAscii (isAscii_of_isNameChar hc)), if_neg hp,
            hend, hat.slice?_append, Option.bind_some, hrest, hmentions]
          cases hstart : isNameStart c with
          | true => cases names.contains (c :: name) <;> rfl
          | false =>
            have hdigit : c.isDigit = true := by rwa [isNameChar_eq, hstart, Bool.false_or] at hc
            simp [hdigit]

/-- The same names are mentioned in the text of arguments as among their pieces. -/
theorem mentions?_text (names : List (List Char)) (hps : ∀ p ∈ ps, ReadsBack p) :
    mentions? names (Argument.text ps) = some (Argument.mentions names [] ps) := by
  rw [mentions?]
  split
  · next hnames =>
    obtain rfl := List.isEmpty_iff.1 hnames
    have hnone : Argument.mentions [] [] ps = false := eq_false_of_ne_true fun h => by
      obtain ⟨name, hmem, -⟩ := Argument.mentions_iff.1 h
      cases hmem
    rw [hnone]
  · exact (At.start _).mentionsFrom?_eq hps

end ByteScan

end FlashStrings
