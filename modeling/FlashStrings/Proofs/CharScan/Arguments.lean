import FlashStrings.CharScan.Arguments
import FlashStrings.Proofs.ByteScan.Split
import FlashStrings.Proofs.Invocation.Segments
import FlashStrings.Proofs.Invocation.Texts
import FlashStrings.Proofs.Invocation.Words
import Mathlib.Data.List.DropRight

/-!
# The two readings of arguments agree

Reading arguments by characters gives what reading their pieces gives, and notes nothing
(`CharScan.arguments_eq`), as long as the depth of parentheses fits its 32 bits.  Then
splitting at commas is splitting the pieces (`byteSplit_eq`).  The searches for a closing
quote all end where `quoted?` ends (`closing?_eq`, `quoteIndex?_eq`).  What is split without
an error consists of pieces that are read off their text, and in the text of such pieces
every search steps over the literals as a whole.
-/

namespace FlashStrings

theorem dropWhileEnd_concat {α : Type} (p : α → Bool) (s : List α) (a : α) :
    dropWhileEnd p (s ++ [a]) = if p a then dropWhileEnd p s else s ++ [a] :=
  List.rdropWhile_concat p s a

namespace CharScan

open Argument (ReadsBack text text_char text_literal text_append text_map_char)

theorem Reader.ofExcept_bind {α β : Type} (x : Except ArgumentError α)
    (f : α → Except ArgumentError β) :
    ofExcept (x >>= f) = ofExcept x >>= fun a => ofExcept (f a) := by
  cases x with
  | error e => rfl
  | ok a => rfl

/-! ## Closing quotes -/

variable {q c : Char} {s body rest : List Char}

theorem closing?_eq (q : Char) (s : List Char) :
    closing? q s = (quoted? q s).map fun read => read.1.length + 1 := by
  fun_induction quoted? q s with
  | case1 => rfl
  | case2 => rfl
  | case3 c s ih =>
    rw [closing?, ih]
    cases quoted? q s <;> rfl
  | case4 s hlone hpair =>
    rw [closing?, if_pos rfl]
    · rfl
    · exact hlone
    · exact hpair
  | case5 s hlone hpair hnewline =>
    rw [closing?, if_neg hnewline, if_pos rfl]
    · rfl
    · exact hlone
    · exact hpair
  | case6 c s hlone hpair hnewline hquote ih =>
    rw [closing?, if_neg hnewline, if_neg hquote, ih]
    · cases quoted? q s <;> rfl
    · exact hlone
    · exact hpair

theorem quoteIndex?_escape (c : Char) (s : List Char) :
    quoteIndex? false ('\\' :: c :: s) = (quoteIndex? false s).map (· + 2) := by
  rw [quoteIndex?, if_neg Bool.false_ne_true, if_pos rfl, quoteIndex?, if_pos rfl, Option.map_map]
  rfl

theorem quoteIndex?_eq (s : List Char) :
    quoteIndex? false s = (quoted? '"' s).map fun read => read.1.length := by
  fun_induction quoted? '"' s with
  | case1 => rfl
  | case2 => rfl
  | case3 c s ih =>
    rw [quoteIndex?_escape, ih]
    cases quoted? '"' s <;> rfl
  | case4 => rfl
  | case5 => rfl
  | case6 c s hlone hpair hnewline hquote ih =>
    have hbackslash := ne_backslash_of_alone hlone hpair
    rw [quoteIndex?, if_neg Bool.false_ne_true, if_neg hbackslash, if_neg hquote,
      if_neg hnewline, ih]
    cases quoted? '"' s <;> rfl

theorem drop_literal (q : Char) (body s : List Char) :
    (body ++ q :: s).drop (body.length + 1) = s := by
  rw [List.drop_append, List.drop_of_length_le (Nat.le_succ _), Nat.add_sub_cancel_left]
  rfl

theorem closing?_of_readsBack (h : ReadsBack (.literal q body)) (s : List Char) :
    closing? q (body ++ q :: s) = some (body.length + 1) := by
  rw [closing?_eq, h.2]
  rfl

/-! ## Marks -/

variable {ps : List Piece}

theorem map_push (p : Piece) (i : Nat) (found : Option (List Piece × List Piece)) :
    ((Argument.label?.push p found).map fun found => i + (text found.1).length) =
      found.map fun found => i + p.text.length + (text found.1).length := by
  cases found with
  | none => rfl
  | some found => simp [Argument.label?.push, Argument.text, Nat.add_assoc]

/-- The colon is found where the label ends. -/
theorem indexOf?_text (h : ∀ p ∈ ps, ReadsBack p) (depth i : Nat) :
    indexOf? ':' depth i (text ps) =
      pure ((Argument.label? depth ps).map fun found => i + (text found.1).length) := by
  fun_induction Argument.label? depth ps generalizing i with
  | case1 => exact indexOf?.eq_1 ..
  | case2 ps =>
    rw [text_char, indexOf?]
    rfl
  | case3 depth ps hdepth ih =>
    rw [text_char, indexOf?, if_neg (by decide), if_neg (by decide), if_neg (by decide),
      if_neg (by simp [hdepth]), ih (List.forall_mem_cons.1 h).2, map_push]
    rfl
  | case4 depth ps ih =>
    rw [text_char, indexOf?, if_neg (by decide), if_pos rfl, ih (List.forall_mem_cons.1 h).2,
      map_push]
    rfl
  | case5 depth ps ih =>
    rw [text_char, indexOf?, if_neg (by decide), if_neg (by decide), if_pos rfl,
      ih (List.forall_mem_cons.1 h).2, map_push]
    rfl
  | case6 depth p ps hcolon hopen hclose ih =>
    obtain ⟨hp, hps⟩ := List.forall_mem_cons.1 h
    rw [map_push]
    cases p with
    | char c =>
      rw [text_char, indexOf?, if_neg hp, if_neg (by simpa using hopen),
        if_neg (by simpa using hclose), if_neg (by simpa using fun hc _ => hcolon hc), ih hps]
      rfl
    | literal q body =>
      rw [text_literal, indexOf?, if_pos hp.1, closing?_of_readsBack hp]
      show indexOf? ':' depth (i + 1 + (body.length + 1)) _ = _
      rw [drop_literal, ih hps]
      simp [Piece.text, Nat.add_assoc, Nat.add_comm 1]

theorem text_eq_nil : text ps = [] ↔ ps = [] := by
  cases ps with
  | nil => exact iff_of_true rfl rfl
  | cons p ps => cases p <;> simp [Argument.text, Piece.text]

theorem isEmpty_text (ps : List Piece) : (text ps).isEmpty = ps.isEmpty := by
  rw [Bool.eq_iff_iff, List.isEmpty_iff, List.isEmpty_iff, text_eq_nil]

/-- The partner of a parenthesis is looked for in the same way. -/
theorem wrapsWhole_text (h : ∀ p ∈ ps, ReadsBack p) (depth : Nat) :
    wrapsWhole depth (text ps) = pure (Argument.closesAtEnd depth ps) := by
  fun_induction Argument.closesAtEnd depth ps with
  | case1 => exact wrapsWhole.eq_1 ..
  | case2 depth ps ih =>
    rw [text_char, wrapsWhole, if_neg (by decide), if_pos rfl, ih (List.forall_mem_cons.1 h).2]
  | case3 depth ps hdepth =>
    rw [text_char, wrapsWhole, if_neg (by decide), if_neg (by decide), if_pos rfl,
      if_pos (by omega), isEmpty_text]
  | case4 depth ps hdepth ih =>
    rw [text_char, wrapsWhole, if_neg (by decide), if_neg (by decide), if_pos rfl,
      if_neg (by omega), ih (List.forall_mem_cons.1 h).2]
  | case5 depth p ps hopen hclose ih =>
    obtain ⟨hp, hps⟩ := List.forall_mem_cons.1 h
    cases p with
    | char c =>
      rw [text_char, wrapsWhole, if_neg hp, if_neg (by simpa using hopen),
        if_neg (by simpa using hclose), ih hps]
    | literal q body =>
      rw [text_literal, wrapsWhole, if_pos hp.1, closing?_of_readsBack hp]
      show wrapsWhole depth _ = _
      rw [drop_literal, ih hps]

/-! ## Blanks and parentheses around a value -/

theorem text_dropWhile (h : ∀ p ∈ ps, ReadsBack p) :
    text (ps.dropWhile Piece.isBlank) = (text ps).dropWhile isBlank := by
  induction ps with
  | nil => rfl
  | cons p ps ih =>
    obtain ⟨hp, hps⟩ := List.forall_mem_cons.1 h
    cases p with
    | char c =>
      rw [text_char, List.dropWhile_cons, List.dropWhile_cons]
      show text (if isBlank c = true then _ else _) = _
      split
      · exact ih hps
      · rfl
    | literal q body =>
      rw [text_literal, List.dropWhile_cons_of_neg (fun h => by cases h),
        List.dropWhile_cons_of_neg, text_literal]
      intro hblank
      exact Argument.not_quote_of_isBlank hblank hp.1

theorem text_dropWhileEnd (h : ∀ p ∈ ps, ReadsBack p) :
    text (dropWhileEnd Piece.isBlank ps) = dropWhileEnd isBlank (text ps) := by
  induction ps using List.reverseRecOn with
  | nil => rfl
  | append_singleton ps p ih =>
    have hps : ∀ p ∈ ps, ReadsBack p := fun p hp => h p (List.mem_append_left _ hp)
    have hp : ReadsBack p := h p (List.mem_append_right _ (List.mem_singleton_self p))
    rw [text_append, dropWhileEnd_concat]
    cases p with
    | char c =>
      show _ = dropWhileEnd isBlank (text ps ++ [c])
      rw [dropWhileEnd_concat]
      show text (if isBlank c = true then _ else _) = _
      split
      · exact ih hps
      · exact text_append ps [.char c]
    | literal q body =>
      have hq : isBlank q = false :=
        eq_false_of_ne_true fun hblank => Argument.not_quote_of_isBlank hblank hp.1
      have htext : text ps ++ text [.literal q body] = (text ps ++ (q :: body)) ++ [q] := by
        simp [Argument.text, Piece.text]
      rw [htext, dropWhileEnd_concat, hq, ← htext, ← text_append]
      rfl

theorem text_trim (h : ∀ p ∈ ps, ReadsBack p) : text (Argument.trim ps) = trim (text ps) := by
  have hdrop : ∀ p ∈ ps.dropWhile Piece.isBlank, ReadsBack p :=
    fun p hp => h p ((List.dropWhile_sublist _).subset hp)
  rw [Argument.trim, trimWhile, text_dropWhileEnd hdrop, text_dropWhile h]
  rfl

theorem readsBack_trim (h : ∀ p ∈ ps, ReadsBack p) : ∀ p ∈ Argument.trim ps, ReadsBack p :=
  fun p hp => h p (Argument.trim_subset ps hp)

/-- The parentheses that wrap the whole are taken away. -/
theorem strip_text (h : ∀ p ∈ ps, ReadsBack p) :
    strip (text ps) = pure (text (Argument.unwrap ps)) := by
  fun_induction Argument.unwrap ps with
  | case1 ps inner hinner _ ih =>
    obtain ⟨rest, rfl, hclose, rfl⟩ := Argument.eq_of_unwrap? hinner
    obtain ⟨front, rfl⟩ := List.getLast?_eq_some_iff.1 (Argument.getLast?_of_closesAtEnd hclose)
    rw [List.dropLast_concat] at ih
    have hfront : ∀ p ∈ front, ReadsBack p := fun p hp =>
      h p (List.mem_cons_of_mem _ (List.mem_append_left _ hp))
    have htext : text (.char '(' :: (front ++ [.char ')'])) = '(' :: (text front ++ [')']) := by
      rw [text_char, text_append]
      rfl
    have hwraps : wrapsWhole 0 ('(' :: (text front ++ [')'])) = pure true := by
      rw [← htext, wrapsWhole_text h, Argument.closesAtEnd, hclose]
    have hlast : ('(' :: (text front ++ [')'])).getLast? = some ')' := by
      rw [← List.cons_append, List.getLast?_concat]
    rw [htext, strip, dif_pos ⟨rfl, hlast⟩, hwraps, pure_bind, if_pos rfl, List.tail_cons,
      List.dropLast_concat, ← text_trim hfront, ih (readsBack_trim hfront), List.dropLast_concat]
  | case2 ps hnone =>
    rw [strip]
    split
    · next hends =>
      have hwraps : Argument.closesAtEnd 0 ps = false := by
        refine eq_false_of_ne_true fun hclose => ?_
        cases ps with
        | nil => cases hclose
        | cons p ps =>
          cases p with
          | literal q body =>
            obtain ⟨hq | hq, -⟩ := h _ List.mem_cons_self
            · simp [text_literal, hq] at hends
            · simp [text_literal, hq] at hends
          | char c =>
            obtain rfl : c = '(' := Option.some.inj hends.1
            rw [Argument.closesAtEnd] at hclose
            rw [Argument.unwrap?, if_pos hclose] at hnone
            cases hnone
      rw [wrapsWhole_text h, hwraps]
      rfl
    · rfl

/-! ## Values -/

variable {defines : Defines}

/-- The contents behind each other, or an error that shows the whole value. -/
def joinSegments (whole content : List Char) : Option (List (List Char)) → Reader (List Char)
  | some contents => pure (contents.foldl appendSegment content)
  | none => throw (.invalidValue (String.ofList whole))

/-- What is no literal, no name and no blank makes no value. -/
theorem segments_of_other {whole content : List Char} (hquote : c ≠ '"')
    (hname : isNameChar c = false) :
    segments defines whole content (c :: s) = joinSegments whole content none := by
  have hnone : nameOf (c :: s) = [] := List.takeWhile_cons_of_neg (by simp [hname])
  rw [segments, if_neg hquote]
  split
  · rw [dif_neg (by simp [hnone])]
    rfl
  · rfl

/-- A name stands for its string define. -/
theorem segments_of_name {whole content word : List Char} (hquote : c ≠ '"')
    (hword : nameOf (c :: s) = word) (hne : word ≠ []) :
    segments defines whole content (c :: s) =
      (defines.get? (String.ofList word)).elim (joinSegments whole content none) fun value =>
        segments defines whole (appendSegment content value.toList)
          (behind word.length (c :: s)) := by
  subst hword
  rw [segments, if_neg hquote]
  split
  · next value hvalue => rw [dif_pos (List.length_pos_iff.2 hne), hvalue, Option.elim_some]
  · next hnone => rw [hnone, Option.elim_none, joinSegments]

/-- A name in front of other pieces. -/
theorem segments?_name {name : List Char} {qs : List Piece} (hne : name ≠ [])
    (hname : ∀ c ∈ name, isNameChar c = true) (hqs : ∀ p, qs.head? = some p → p.inName = false) :
    Argument.segments? defines [] (name.map .char ++ qs) =
      (Argument.segments? defines [] qs).bind fun rest =>
        (defines.get? (String.ofList name)).map fun content => content.toList :: rest := by
  have hend : ∀ c rest, qs = .char c :: rest → isNameChar c = false := by
    rintro c rest rfl
    exact hqs _ rfl
  rw [Argument.segments?_append [] (List.all_eq_true.2 hname), List.append_nil,
    Argument.segments?_flush _ hend]
  exact congrArg _ (funext (Argument.flush_reverse hne))

/-- A literal in front of pieces that are put together. -/
theorem segments_literal {q : Char} {body : List Char} (hp : ReadsBack (.literal q body))
    (whole content : List Char)
    (ih : ∀ content, segments defines whole content ((text ps).dropWhile isBlank) =
      joinSegments whole content (Argument.segments? defines [] ps)) :
    segments defines whole content (text (.literal q body :: ps)) =
      joinSegments whole content (Argument.segments? defines [] (.literal q body :: ps)) := by
  obtain ⟨hq, hbody⟩ := hp
  rw [text_literal]
  rcases hq with rfl | rfl
  · rw [segments, if_pos rfl, quoteIndex?_eq, hbody]
    show segments defines whole _ (behind (body.length + 1) _) = _
    rw [behind, drop_literal, List.take_left, ih, Argument.segments?]
    cases Argument.segments? defines [] ps <;> rfl
  · exact segments_of_other (by decide) rfl

/-- A name in front of pieces that are put together. -/
theorem segments_name {c : Char} {name : List Char} {qs : List Piece}
    (hc : ¬(c = '"' ∨ c = '\'')) (hname : ∀ d ∈ c :: name, isNameChar d = true)
    (hreads : ∀ p ∈ qs, ReadsBack p) (hqs : ∀ p, qs.head? = some p → p.inName = false)
    (whole content : List Char)
    (ih : ∀ content, segments defines whole content ((text qs).dropWhile isBlank) =
      joinSegments whole content (Argument.segments? defines [] qs)) :
    segments defines whole content (c :: (name ++ text qs)) =
      joinSegments whole content
        (Argument.segments? defines [] (.char c :: (name.map .char ++ qs))) := by
  have hof : nameOf (c :: (name ++ text qs)) = c :: name :=
    Argument.takeWhile_text hname hreads hqs
  have hbehind : behind (c :: name).length (c :: (name ++ text qs)) =
      (text qs).dropWhile isBlank := by
    rw [behind, ← List.cons_append, List.drop_left]
  have hsegments : Argument.segments? defines [] (.char c :: (name.map .char ++ qs)) = _ :=
    segments?_name (List.cons_ne_nil c name) hname hqs
  rw [hsegments, segments_of_name (fun hquote => hc (.inl hquote)) hof (List.cons_ne_nil c name)]
  cases defines.get? (String.ofList (c :: name)) with
  | none => cases Argument.segments? defines [] qs <;> rfl
  | some value =>
    rw [Option.elim_some, hbehind, ih]
    cases Argument.segments? defines [] qs <;> rfl

/-- A value is put together as its pieces are. -/
theorem segments_text (h : ∀ p ∈ ps, ReadsBack p) (whole content : List Char) :
    segments defines whole content ((text ps).dropWhile isBlank) =
      joinSegments whole content (Argument.segments? defines [] ps) := by
  -- A name is taken at once, so the induction is on the number of pieces.
  induction hn : ps.length using Nat.strong_induction_on generalizing ps content with
  | _ n ih =>
    cases ps with
    | nil => exact segments.eq_1 ..
    | cons p ps =>
      obtain ⟨hp, hps⟩ := List.forall_mem_cons.1 h
      have hlength : ps.length < n := hn ▸ Nat.lt_succ_self ps.length
      cases p with
      | literal q body =>
        have hblank : isBlank q = false := by rcases hp.1 with rfl | rfl <;> rfl
        have hdrop : (text (.literal q body :: ps)).dropWhile isBlank =
            text (.literal q body :: ps) := List.dropWhile_cons_of_neg (by simp [hblank])
        rw [hdrop]
        exact segments_literal hp whole content fun content =>
          ih ps.length hlength hps content rfl
      | char c =>
        cases hblank : isBlank c with
        | true =>
          rw [text_char, List.dropWhile_cons_of_pos hblank, ih ps.length hlength hps content rfl,
            Argument.segments?_skip hblank]
        | false =>
          rw [text_char, List.dropWhile_cons_of_neg (by simp [hblank])]
          cases hc : isNameChar c with
          | false =>
            rw [segments_of_other (fun hquote => hp (.inl hquote)) hc, Argument.segments?,
              if_neg (by simp [hc]), if_neg (by simp [hblank])]
          | true =>
            obtain ⟨name, qs, rfl, hname, hqs⟩ := Argument.exists_name ps
            have hlength : qs.length < n := by
              rw [← hn, List.length_cons, List.length_append]
              omega
            have hreads : ∀ p ∈ qs, ReadsBack p :=
              fun p hp => hps p (List.mem_append_right _ hp)
            rw [text_append, text_map_char]
            exact segments_name hp (List.forall_mem_cons.2 ⟨hc, hname⟩) hreads hqs whole content
              fun content => ih qs.length hlength hreads content rfl

/-- What is left of a value begins with no blank. -/
theorem head?_unwrap_trim {p : Piece} (h : (Argument.unwrap (Argument.trim ps)).head? = some p) :
    p.isBlank = false := by
  suffices hall : ∀ qs : List Piece, (∀ p, qs.head? = some p → p.isBlank = false) →
      ∀ p, (Argument.unwrap qs).head? = some p → p.isBlank = false from
    hall _ (fun p hp => head?_trimWhile hp) p h
  intro qs hqs
  fun_induction Argument.unwrap qs with
  | case1 qs inner hinner _ ih =>
    obtain ⟨rest, rfl, -, rfl⟩ := Argument.eq_of_unwrap? hinner
    exact ih fun p hp => head?_trimWhile hp
  | case2 qs hnone => exact hqs

/-- A classified value. -/
def ofOperand : Operand → Reader (Option Token)
  | .nothing => pure none
  | .word word => pure (some (.word word))
  | .text content => pure (some (.text content))
  | .other shown => throw (.invalidValue shown)

theorem value_text (h : ∀ p ∈ ps, ReadsBack p) :
    value defines (text ps) = ofOperand (Argument.operand defines ps) := by
  have hsub : Argument.unwrap (Argument.trim ps) ⊆ ps :=
    List.Subset.trans (Argument.unwrap_subset _) (Argument.trim_subset ps)
  have hreads : ∀ p ∈ Argument.unwrap (Argument.trim ps), ReadsBack p := fun p hp => h p (hsub hp)
  have hdrop : (Argument.unwrap (Argument.trim ps)).dropWhile Piece.isBlank =
      Argument.unwrap (Argument.trim ps) := by
    cases hhead : Argument.unwrap (Argument.trim ps) with
    | nil => rfl
    | cons p qs =>
      have hp : p.isBlank = false := head?_unwrap_trim (by rw [hhead]; rfl)
      exact List.dropWhile_cons_of_neg (by simp [hp])
  have hsegments := @segments_text _ defines hreads
    (text (Argument.unwrap (Argument.trim ps))) []
  rw [← text_dropWhile hreads, hdrop] at hsegments
  rw [value, ← text_trim h, strip_text (readsBack_trim h), pure_bind, isEmpty_text,
    Argument.operand]
  clear hdrop
  generalize Argument.unwrap (Argument.trim ps) = qs at hsegments
  have hshown : String.ofList (text qs) = Argument.shown qs := rfl
  rw [hshown]
  by_cases hempty : qs.isEmpty = true
  · rw [if_pos hempty, if_pos hempty]
    rfl
  rw [if_neg hempty, if_neg hempty]
  by_cases hcode : isLocaleCode (Argument.shown qs) = true
  · rw [if_pos hcode, if_pos hcode]
    cases defines.get? (Argument.shown qs) <;> rfl
  · rw [if_neg hcode, if_neg hcode, hsegments]
    cases Argument.segments? defines [] qs <;> rfl

/-! ## Arguments -/

theorem values_text {args : List (List Piece)} (h : ∀ arg ∈ args, ∀ p ∈ arg, ReadsBack p)
    (first : Bool) (read : Value) (pending : List String) :
    values defines first read pending (args.map text) =
      Reader.ofExcept (Argument.readValues defines first read pending args) := by
  induction args generalizing first read pending with
  | nil =>
    rw [List.map_nil, values, Argument.readValues]
    split <;> rfl
  | cons arg args ih =>
    obtain ⟨harg, hargs⟩ := List.forall_mem_cons.1 h
    rw [List.map_cons, values, Argument.readValues, isEmpty_text, indexOf?_text harg, pure_bind]
    split
    · rfl
    cases hlabel : Argument.label? 0 arg with
    | none =>
      show (value defines (text arg) >>= _) = _
      rw [value_text harg]
      cases hoperand : Argument.operand defines arg with
      | nothing => rfl
      | other shown => rfl
      | text content =>
        simp only [ofOperand, pure_bind]
        split
        · exact ih hargs ..
        · rfl
      | word code =>
        have hcode := Argument.isLocaleCode_of_operand hoperand
        simp only [ofOperand, pure_bind, hcode, if_true]
        split
        · rfl
        · exact ih hargs ..
    | some found =>
      obtain ⟨label, rest⟩ := found
      have harg' := Argument.eq_of_label? hlabel
      have htext : text arg = text label ++ ':' :: text rest := by
        rw [harg', text_append, text_char]
      have hrest : ∀ p ∈ rest, ReadsBack p := fun p hp =>
        harg p (harg' ▸ List.mem_append_right _ (List.mem_cons_of_mem _ hp))
      have htake : (text arg).take (0 + (text label).length) = text label := by
        rw [Nat.zero_add, htext, List.take_left]
      have hdrop : (text arg).drop (0 + (text label).length + 1) = text rest := by
        rw [Nat.zero_add, htext, ← List.drop_drop, List.drop_left]
        rfl
      simp only [Option.map_some, htake, hdrop, value_text hrest, Reader.ofExcept_bind]
      refine bind_congr fun codes => ?_
      cases Argument.operand defines rest with
      | nothing => rfl
      | other shown => rfl
      | word code => rfl
      | text content =>
        simp only [ofOperand, pure_bind, Reader.ofExcept_bind]
        exact bind_congr fun read => ih hargs false read []

theorem readValue_text {args : List (List Piece)} (h : ∀ arg ∈ args, ∀ p ∈ arg, ReadsBack p) :
    readValue defines (args.map text) = Reader.ofExcept (Argument.readValue defines args) := by
  have hnil : args.map text = [[]] ↔ args = [[]] := by
    rw [List.map_eq_singleton_iff]
    simp only [text_eq_nil, exists_eq_right]
  rw [readValue]
  split
  · next hargs =>
    rw [hnil.1 hargs]
    rfl
  · next hargs =>
    rw [Argument.readValue, values_text h]
    · cases Argument.readValues defines true {} [] args <;> rfl
    · exact fun hempty => hargs (hnil.2 hempty)

/-- Both readings give the same as long as the depth of parentheses fits, and no unclosed
literal is met behind the splitting. -/
theorem arguments_eq (defines : Defines) {text : String} (hlt : text.toList.count '(' < 2 ^ 31) :
    arguments defines text = some (Reader.ofExcept (parseArguments defines text)) := by
  have hparse : parseArguments defines text = Argument.readAll defines
    (Argument.read text.toList).2.isEmpty (Argument.read text.toList).1 := rfl
  rw [arguments, byteSplit_eq hlt, hparse, Argument.readAll, splitArguments]
  cases hsplit : Argument.split (Argument.read text.toList).2.isEmpty 0
    (Argument.read text.toList).1 with
  | error e => simp only [hsplit]; rfl
  | ok parts =>
    have hreads : ∀ part ∈ parts, ∀ p ∈ part, ReadsBack p := fun part hpart p hp =>
      Argument.readsBack_of_mem_read text.toList p (Argument.subset_of_split hsplit hpart hp)
    have hargs : ∀ part ∈ parts.map Argument.trim, ∀ p ∈ part, ReadsBack p := by
      intro part hpart
      obtain ⟨part, hmem, rfl⟩ := List.mem_map.1 hpart
      exact readsBack_trim (hreads part hmem)
    have htrim : (parts.map Argument.shown).map (fun part => trim part.toList) =
        (parts.map Argument.trim).map Argument.text := by
      rw [List.map_map, List.map_map]
      refine List.map_congr_left fun part hpart => ?_
      rw [Function.comp_apply, Argument.shown, String.toList_ofList]
      exact (text_trim (hreads part hpart)).symm
    simp only [hsplit, Except.map, Option.map_some, Reader.ofExcept_bind]
    refine congrArg some ?_
    show readParts defines (parts.map Argument.shown) = pure parts >>= _
    rw [readParts, htrim, pure_bind]
    generalize parts.map Argument.trim = args at hargs
    have hhead : String.ofList ((args.map Argument.text).headD []) =
        Argument.shown (args.headD []) := by
      cases args <;> rfl
    have htail : readValue defines (args.tail.map Argument.text) =
        Reader.ofExcept (Argument.readValue defines args.tail) :=
      readValue_text fun part hpart => hargs part (List.mem_of_mem_tail hpart)
    rw [hhead, ← List.map_tail, htail]
    split
    · rfl
    split
    · rfl
    · cases Argument.readValue defines args.tail <;> rfl

end CharScan

end FlashStrings
