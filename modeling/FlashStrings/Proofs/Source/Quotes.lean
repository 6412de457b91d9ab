import FlashStrings.Proofs.Except
import FlashStrings.Proofs.Source.Comments
import FlashStrings.Proofs.Source.Steps

/-!
# String literals among the arguments

A string literal among the pieces of an invocation stands in the code behind the text of
the pieces before it.  Reading comes to its opening quote whatever stands behind the quote
(`Argument.ComesToQuote`), and goes on behind its closing quote whatever the literal holds
(`Argument.exists_comesToQuote`).
-/

namespace FlashStrings

namespace Argument

variable {depth width width' : Nat} {found before after ps : List Piece} {args body s : List Char}

/-- Reading the arguments comes to an opening quote behind this text and these pieces,
whatever stands behind the quote. -/
def ComesToQuote (lead : List Char) (before : List Piece) : Prop :=
  ∃ depth, ∀ s, extract (lead ++ '"' :: s) = collect depth before.reverse lead.length ('"' :: s)

/-- The pieces do not depend on the width so far. -/
theorem collect_add (n : Nat) (depth : Nat) (found : List Piece) (width : Nat) (s : List Char) :
    collect depth found (width + n) s =
      (collect depth found width s).map fun (ps, m) => (ps, m + n) := by
  fun_induction collect depth found width s with
  | case1 depth found width => rw [collect]; rfl
  | case2 depth found width s ih => rw [collect_opening, ← ih]; congr 1; omega
  | case3 found width s =>
    rw [collect_end]
    exact congrArg (fun m => Except.ok (found.reverse, m)) (Nat.add_right_comm width n 1)
  | case4 found width s depth _ ih => rw [collect_closing, ← ih]; congr 1; omega
  | case5 depth found width c s hopen hclose hquote body rest hbody _ ih =>
    rw [collect_of_quoted? hquote hbody, ← ih]; congr 1; omega
  | case6 depth found width c s hopen hclose hquote hbody =>
    rw [collect_of_unclosed hquote hbody]; rfl
  | case7 depth found width c s hopen hclose hquote n hn _ ih =>
    rw [collect_of_comment? hn, ← ih]; congr 1; omega
  | case8 depth found width c s hopen hclose hquote hn ih =>
    rw [collect_of_none hopen hclose hquote hn, ← ih]; congr 1; omega

/-- The piece that is found next is the one that is looked for or one before it. -/
theorem cases_of_collect {p q : Piece} (h : collect depth (p :: found) width s = .ok (ps, width'))
    (hps : ps = found.reverse ++ (before ++ q :: after)) :
    (before = [] ∧ p = q) ∨
      ∃ before', before = p :: before' ∧ ps = (p :: found).reverse ++ (before' ++ q :: after) := by
  obtain ⟨rest, hrest⟩ := prefix_of_collect h
  rw [List.reverse_cons, List.append_assoc] at hrest
  have hsplit : p :: rest = before ++ q :: after := List.append_cancel_left (hrest.trans hps)
  cases before with
  | nil => exact .inl ⟨rfl, (List.cons.inj hsplit).1⟩
  | cons b before =>
    obtain ⟨rfl, -⟩ := List.cons.inj hsplit
    exact .inr ⟨before, rfl, by rw [hps]; simp⟩

/-- A string literal among the pieces stands behind the text of the pieces before it. -/
theorem exists_lead (h : collect depth found width s = .ok (ps, width'))
    (hps : ps = found.reverse ++ (before ++ .literal '"' body :: after)) :
    ∃ lead rest depth', s = lead ++ '"' :: (body ++ '"' :: rest) ∧ isQuotable body = true ∧
      ∀ t, collect depth found width (lead ++ '"' :: t) =
        collect depth' (before.reverse ++ found) (width + lead.length) ('"' :: t) := by
  fun_induction collect depth found width s generalizing before with
  | case1 => cases h
  | case2 depth found width s ih =>
    obtain ⟨rfl, hp⟩ | ⟨before, rfl, hnext⟩ := cases_of_collect h hps
    · cases hp
    obtain ⟨lead, rest, depth', rfl, hbody, hlead⟩ := ih h hnext
    refine ⟨'(' :: lead, rest, depth', rfl, hbody, fun t => ?_⟩
    rw [List.cons_append, collect_opening, hlead]
    simp [Nat.add_assoc, Nat.add_comm 1]
  | case3 found width s =>
    obtain ⟨rfl, -⟩ := Prod.mk.inj (Except.ok.inj h)
    simp at hps
  | case4 found width s depth _ ih =>
    obtain ⟨rfl, hp⟩ | ⟨before, rfl, hnext⟩ := cases_of_collect h hps
    · cases hp
    obtain ⟨lead, rest, depth', rfl, hbody, hlead⟩ := ih h hnext
    refine ⟨')' :: lead, rest, depth', rfl, hbody, fun t => ?_⟩
    rw [List.cons_append, collect_closing, hlead]
    simp [Nat.add_assoc, Nat.add_comm 1]
  | case5 depth found width c s hopen hclose hquote content rest hcontent _ ih =>
    obtain rfl := quoted?_eq_some hcontent
    obtain ⟨rfl, hp⟩ | ⟨before, rfl, hnext⟩ := cases_of_collect h hps
    · obtain ⟨rfl, rfl⟩ := Piece.literal.inj hp
      exact ⟨[], rest, depth, rfl, isQuotable_of_quoted? hcontent, fun t => rfl⟩
    obtain ⟨lead, rest, depth', rfl, hbody, hlead⟩ := ih h hnext
    refine ⟨c :: (content ++ c :: lead), rest, depth', by simp, hbody, fun t => ?_⟩
    have hclosed := quoted?_body hcontent (lead ++ '"' :: t)
    rw [List.cons_append, List.append_assoc, List.cons_append, collect_of_quoted? hquote hclosed,
      hlead]
    simp [Nat.add_assoc, Nat.add_comm, Nat.add_left_comm]
  | case6 => cases h
  | case7 depth found width c s hopen hclose hquote n hn _ ih =>
    obtain ⟨rfl, hp⟩ | ⟨before, rfl, hnext⟩ := cases_of_collect h hps
    · cases hp
    obtain ⟨lead, rest, depth', hdrop, hbody, hlead⟩ := ih h hnext
    obtain ⟨front, hsplit, rfl⟩ :
        ∃ front, c :: s = front ++ (lead ++ '"' :: (body ++ '"' :: rest)) ∧ front.length = n := by
      refine ⟨(c :: s).take n, ?_, List.length_take_of_le (Lexeme.comment?_le hn)⟩
      rw [← hdrop, List.take_append_drop]
    refine ⟨front ++ lead, rest, depth', by rw [hsplit, List.append_assoc], hbody, fun t => ?_⟩
    have hn' : Lexeme.comment? (front ++ lead ++ '"' :: t) = some front.length := by
      rw [hsplit, ← List.append_assoc] at hn
      exact Lexeme.comment?_of_le rfl (by decide) hn (by simp) _
    rw [collect_of_comment? hn', List.append_assoc, List.drop_left, hlead]
    simp [Nat.add_assoc]
  | case8 depth found width c s hopen hclose hquote hn ih =>
    obtain ⟨rfl, hp⟩ | ⟨before, rfl, hnext⟩ := cases_of_collect h hps
    · cases hp
    obtain ⟨lead, rest, depth', rfl, hbody, hlead⟩ := ih h hnext
    refine ⟨c :: lead, rest, depth', rfl, hbody, fun t => ?_⟩
    have hn' : Lexeme.comment? (c :: (lead ++ '"' :: t)) = none :=
      Lexeme.comment?_eq_none_of_head? hn (by cases lead <;> rfl)
    rw [List.cons_append, collect_of_none hopen hclose hquote hn', hlead]
    simp [Nat.add_assoc, Nat.add_comm 1]

/-- What is found behind a place does not depend on what was found before it. -/
theorem collect_eq (depth : Nat) (found : List Piece) (width : Nat) (s : List Char) :
    collect depth found width s =
      (collect depth [] 0 s).map fun (ps, n) => (found.reverse ++ ps, n + width) := by
  have hfound := collect_append_found depth [] found width s
  have hwidth := collect_add width depth [] 0 s
  rw [List.nil_append] at hfound
  rw [Nat.zero_add] at hwidth
  rw [hfound, hwidth]
  cases collect depth [] 0 s <;> rfl

/-- The pieces behind a literal are the same whatever the literal holds. -/
theorem exists_comesToQuote
    (h : extract args = .ok (before ++ .literal '"' body :: after, width)) :
    ∃ lead rest, ComesToQuote lead before ∧ args = lead ++ '"' :: (body ++ '"' :: rest) ∧
      isQuotable body = true ∧ ∀ content, isQuotable content = true →
        ∃ width', extract (lead ++ '"' :: (content ++ '"' :: rest)) =
          .ok (before ++ .literal '"' content :: after, width') := by
  obtain ⟨lead, rest, depth, rfl, hbody, hlead⟩ := exists_lead h rfl
  have hcomes : ∀ s, extract (lead ++ '"' :: s) =
      collect depth before.reverse lead.length ('"' :: s) := fun s => by
    rw [extract, hlead, List.append_nil, Nat.zero_add]
  have hcontent {content : List Char} (hcontent : isQuotable content = true) :
      extract (lead ++ '"' :: (content ++ '"' :: rest)) =
        (collect depth [] 0 rest).map fun (ps, n) =>
          (before ++ .literal '"' content :: ps, n + (lead.length + content.length + 2)) := by
    rw [hcomes, collect_of_quoted? (.inl rfl) (quoted?_of_isQuotable hcontent rest), collect_eq]
    simp
  refine ⟨lead, rest, ⟨depth, hcomes⟩, rfl, hbody, fun content hquotable => ?_⟩
  rw [hcontent hbody] at h
  obtain ⟨⟨ps, n⟩, hrest, heq⟩ := map_eq_ok h
  obtain ⟨hps, -⟩ := Prod.mk.inj heq
  obtain ⟨-, rfl⟩ := List.cons.inj (List.append_cancel_left hps)
  exact ⟨_, by rw [hcontent hquotable, hrest]; rfl⟩

theorem ComesToQuote.extract_of_unclosed {lead : List Char} (h : ComesToQuote lead before)
    (hs : quoted? '"' s = none) : extract (lead ++ '"' :: s) = .error .unterminatedString := by
  obtain ⟨depth, h⟩ := h
  rw [h, collect_of_unclosed (.inl rfl) hs]

end Argument

end FlashStrings
