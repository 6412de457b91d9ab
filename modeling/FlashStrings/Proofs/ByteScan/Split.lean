import FlashStrings.ByteScan.Split
import FlashStrings.Invocation.Split
import FlashStrings.Proofs.ByteScan.Ends
import FlashStrings.Proofs.Invocation.Nested
import Mathlib.Algebra.Ring.Nat

/-!
# Where a text is split

`Passes d s d'` says what the splitting goes over without a cut, and how the depth of
parentheses changes on the way.  An accepted text is such parts, from depth zero to depth
zero, with commas between them (`SplitsInto.splitFrom?_eq`, `exists_splitsInto`).  So the cuts
are at the commas outside of literals and parentheses (`isSplittable_iff_of_byteSplit`), and
each part is accepted on its own (`byteSplit_eq_ok_iff`).

The depth has 32 bits.  It fits if fewer than 2^31 parentheses open.  Then what is accepted
are the texts that can be split (`exists_byteSplit_iff`), and splitting by offsets is splitting
the pieces (`byteSplit_eq`).
-/

namespace FlashStrings

namespace ByteScan

variable {text s t u cur part first : List Char} {c q : Char} {start i d d' : Nat}
variable {args others parts : List (List Char)} {depth depth' : Int32}

/-! ## Depths -/

theorem addDepth?_eq_some_iff {m n k : Int32} :
    addDepth? m n = some k ↔ k.toInt = m.toInt + n.toInt := by
  rw [addDepth?]
  split
  · next hfits => rw [Option.some_inj, ← hfits, Int32.toInt_inj, eq_comm]
  · next hnot =>
    refine iff_of_false nofun fun hk => hnot ?_
    have hle := k.le_toInt
    have hlt := k.toInt_lt
    rw [Int32.toInt_add, ← hk]
    exact Int.bmod_eq_of_le (by omega) (by omega)

theorem exists_depth (h : d < 2 ^ 31) : ∃ depth : Int32, depth.toInt = d :=
  ⟨Int32.ofNat d, Int32.toInt_ofNat_of_lt h⟩

theorem depth_eq_zero_iff : depth = 0 ↔ depth.toInt = 0 := by
  rw [← Int32.toInt_inj, Int32.toInt_zero]

/-! ## Literals -/

/-- A literal is stepped over to its closing quote. -/
theorem skipQuoted_eq (q : Char) (i : Nat) (s : List Char) :
    skipQuoted q i s = match quoted? q s with
      | some (body, rest) => .ok (i + byteSize body + q.utf8Size, rest)
      | none => .error .unterminatedString := by
  fun_induction quoted? q s generalizing i with
  | case1 => rfl
  | case2 => rfl
  | case3 c s ih =>
    rw [skipQuoted, ih]
    cases quoted? q s with
    | none => rfl
    | some read =>
      show Except.ok _ = Except.ok _
      rw [byteSize_cons_of_isAscii rfl, byteSize_cons]
      congr 2
      omega
  | case4 s hlone hpair =>
    rw [skipQuoted, if_pos rfl]
    · exact hlone
    · exact hpair
  | case5 s hlone hpair hnewline =>
    rw [skipQuoted, if_neg hnewline, if_pos rfl]
    · rfl
    · exact hlone
    · exact hpair
  | case6 c s hlone hpair hnewline hquote ih =>
    rw [skipQuoted, if_neg hnewline, if_neg hquote, ih]
    · cases quoted? q s with
      | none => rfl
      | some read =>
        show Except.ok _ = Except.ok _
        rw [byteSize_cons, Nat.add_assoc i]
    · exact hlone
    · exact hpair

/-! ## Steps -/

theorem splitFrom?_literal (hq : q = '"' ∨ q = '\'') (hbody : quoted? q s = some (part, t)) :
    splitFrom? text depth start i args (q :: s) =
      splitFrom? text depth start (i + byteSize (q :: (part ++ [q]))) args t := by
  rw [splitFrom?, if_pos hq]
  split
  · next e he => simp [skipQuoted_eq, hbody] at he
  · next j rest he =>
    simp only [skipQuoted_eq, hbody, Except.ok.injEq, Prod.mk.injEq] at he
    obtain ⟨rfl, rfl⟩ := he
    congr 1
    simp only [byteSize_cons, byteSize_append, byteSize_nil]
    omega

theorem splitFrom?_unclosed (hq : q = '"' ∨ q = '\'') (hnone : quoted? q s = none) :
    splitFrom? text depth start i args (q :: s) = some (.error .unterminatedString) := by
  rw [splitFrom?, if_pos hq]
  split
  · next e he =>
    simp only [skipQuoted_eq, hnone, Except.error.injEq] at he
    rw [he]
  · next he => simp [skipQuoted_eq, hnone] at he

theorem splitFrom?_opening (h : depth'.toInt = depth.toInt + 1) :
    splitFrom? text depth start i args ('(' :: s) =
      splitFrom? text depth' start (i + 1) args s := by
  have hadd : addDepth? depth 1 = some depth' := addDepth?_eq_some_iff.2 h
  rw [splitFrom?, if_neg (by decide), if_pos rfl, hadd]
  rfl

theorem splitFrom?_closing (h : depth.toInt = depth'.toInt + 1) (hpos : 0 ≤ depth'.toInt) :
    splitFrom? text depth start i args (')' :: s) =
      splitFrom? text depth' start (i + 1) args s := by
  have hadd : addDepth? depth (-1) = some depth' := by
    refine addDepth?_eq_some_iff.2 ?_
    show depth'.toInt = depth.toInt + -1
    omega
  have hnot : ¬depth' < 0 := by
    rw [Int32.lt_iff_toInt_lt, Int32.toInt_zero]
    omega
  rw [splitFrom?, if_neg (by decide), if_neg (by decide), if_pos rfl, hadd]
  exact if_neg hnot

theorem splitFrom?_early (h : depth.toInt = 0) :
    splitFrom? text depth start i args (')' :: s) = some (.error .unbalancedParentheses) := by
  obtain rfl := depth_eq_zero_iff.2 h
  rw [splitFrom?, if_neg (by decide), if_neg (by decide), if_pos rfl]
  rfl

theorem splitFrom?_cut (h : depth.toInt = 0) (hpart : slice? text start i = some part) :
    splitFrom? text depth start i args (',' :: s) =
      splitFrom? text depth (i + 1) (i + 1) (args ++ [part]) s := by
  rw [splitFrom?, if_neg (by decide), if_neg (by decide), if_neg (by decide),
    if_pos ⟨rfl, depth_eq_zero_iff.2 h⟩, hpart]
  rfl

theorem splitFrom?_other (hq : ¬(c = '"' ∨ c = '\'')) (hopen : c ≠ '(') (hclose : c ≠ ')')
    (hcomma : ¬(c = ',' ∧ depth.toInt = 0)) :
    splitFrom? text depth start i args (c :: s) =
      splitFrom? text depth start (i + c.utf8Size) args s := by
  rw [splitFrom?, if_neg hq, if_neg hopen, if_neg hclose,
    if_neg fun h => hcomma ⟨h.1, depth_eq_zero_iff.1 h.2⟩]

theorem splitFrom?_nil (h : depth.toInt = 0) (hrest : At text start part) :
    splitFrom? text depth start i args [] = some (.ok (args ++ [part])) := by
  rw [splitFrom?, if_neg (not_not_intro (depth_eq_zero_iff.2 h)), hrest.slice?_rest]
  rfl

/-! ## What is passed -/

/-- From depth `d` the splitting goes over the text without a cut, and comes to depth
`d'`. -/
inductive Passes : Nat → List Char → Nat → Prop where
  | nil (d : Nat) : Passes d [] d
  | literal {q : Char} {body s : List Char} {d d' : Nat} : (q = '"' ∨ q = '\'') →
      IsContent q body → Passes d s d' → Passes d (q :: (body ++ q :: s)) d'
  | opening {s : List Char} {d d' : Nat} :
      d + 1 < 2 ^ 31 → Passes (d + 1) s d' → Passes d ('(' :: s) d'
  | closing {s : List Char} {d d' : Nat} : Passes d s d' → Passes (d + 1) (')' :: s) d'
  | other {c : Char} {s : List Char} {d d' : Nat} : ¬(c = '"' ∨ c = '\'') → c ≠ '(' → c ≠ ')' →
      ¬(c = ',' ∧ d = 0) → Passes d s d' → Passes d (c :: s) d'

namespace Passes

theorem append {d₁ : Nat} (h : Passes d s d₁) (ht : Passes d₁ t d') : Passes d (s ++ t) d' := by
  induction h with
  | nil => exact ht
  | literal hq hbody _ ih =>
    rw [List.cons_append, List.append_assoc, List.cons_append]
    exact .literal hq hbody (ih ht)
  | opening hlt _ ih => exact .opening hlt (ih ht)
  | closing _ ih => exact .closing (ih ht)
  | other hq hopen hclose hcomma _ ih => exact .other hq hopen hclose hcomma (ih ht)

/-- Outside of the literals of such a text no parenthesis closes early. -/
theorem exists_outside (h : Passes d s d') : ∃ o, Outside s o ∧ Balances d o d' := by
  induction h with
  | nil d => exact ⟨[], .nil, .nil d⟩
  | literal hq hbody _ ih =>
    obtain ⟨o, ho, hbalances⟩ := ih
    exact ⟨o, .literal hq hbody ho, hbalances⟩
  | opening _ _ ih =>
    obtain ⟨o, ho, hbalances⟩ := ih
    exact ⟨'(' :: o, .char (by decide) ho, Balances.opening_iff.2 hbalances⟩
  | closing _ ih =>
    obtain ⟨o, ho, hbalances⟩ := ih
    exact ⟨')' :: o, .char (by decide) ho, Balances.closing_iff.2 ⟨_, rfl, hbalances⟩⟩
  | @other c s d d' hq hopen hclose _ _ ih =>
    obtain ⟨o, ho, hbalances⟩ := ih
    exact ⟨c :: o, .char hq ho, (Balances.other_iff hopen hclose).2 hbalances⟩

/-- The loop goes over the text, whatever stands behind it. -/
theorem splitFrom?_append (h : Passes d s d') (hdepth : depth.toInt = d) (i : Nat)
    (t : List Char) : ∃ depth' : Int32, depth'.toInt = d' ∧
      splitFrom? text depth start i args (s ++ t) =
        splitFrom? text depth' start (i + byteSize s) args t := by
  induction h generalizing depth i with
  | nil => exact ⟨depth, hdepth, rfl⟩
  | @literal q body s d d' hq hbody _ ih =>
    obtain ⟨depth', hdepth', heq⟩ := ih hdepth (i + byteSize (q :: (body ++ [q])))
    refine ⟨depth', hdepth', ?_⟩
    rw [List.cons_append, List.append_assoc, List.cons_append,
      splitFrom?_literal hq (quoted?_of_isContent hq hbody _), heq]
    congr 1
    simp only [byteSize_cons, byteSize_append, byteSize_nil]
    omega
  | @opening s d d' hlt _ ih =>
    obtain ⟨inner, hinner⟩ := exists_depth hlt
    obtain ⟨depth', hdepth', heq⟩ := ih hinner (i + 1)
    have hstep : inner.toInt = depth.toInt + 1 := by omega
    refine ⟨depth', hdepth', ?_⟩
    rw [List.cons_append, splitFrom?_opening hstep, heq, byteSize_cons_of_isAscii rfl,
      Nat.add_assoc, Nat.add_comm 1]
  | @closing s d d' _ ih =>
    have hlt := depth.toInt_lt
    obtain ⟨outer, houter⟩ := exists_depth (d := d) (by omega)
    obtain ⟨depth', hdepth', heq⟩ := ih houter (i + 1)
    have hstep : depth.toInt = outer.toInt + 1 := by omega
    refine ⟨depth', hdepth', ?_⟩
    rw [List.cons_append, splitFrom?_closing hstep (by omega), heq, byteSize_cons_of_isAscii rfl,
      Nat.add_assoc, Nat.add_comm 1]
  | @other c s d d' hq hopen hclose hcomma _ ih =>
    obtain ⟨depth', hdepth', heq⟩ := ih hdepth (i + c.utf8Size)
    refine ⟨depth', hdepth', ?_⟩
    rw [List.cons_append,
      splitFrom?_other hq hopen hclose fun h => hcomma ⟨h.1, by omega⟩, heq, byteSize_cons,
      Nat.add_assoc]

end Passes

/-! ## Parts -/

/-- The text is these parts with commas between them.  The first of them has begun at depth
`d`. -/
structure SplitsInto (d : Nat) (s first : List Char) (others : List (List Char)) : Prop where
  join : [','].intercalate (first :: others) = s
  first : Passes d first 0
  others : ∀ part ∈ others, Passes 0 part 0

namespace SplitsInto

theorem nil : SplitsInto 0 [] [] [] := ⟨rfl, .nil 0, List.forall_mem_nil _⟩

/-- What is passed belongs to the part that has begun. -/
theorem passes_append (h : Passes d u d') (hs : SplitsInto d' s first others) :
    SplitsInto d (u ++ s) (u ++ first) others where
  join := by
    rw [← hs.join]
    cases others with
    | nil => simp
    | cons => simp [List.intercalate_cons_cons]
  first := h.append hs.first
  others := hs.others

theorem literal {body : List Char} (hq : q = '"' ∨ q = '\'') (hbody : IsContent q body)
    (hs : SplitsInto d s first others) :
    SplitsInto d (q :: (body ++ q :: s)) (q :: (body ++ q :: first)) others := by
  have hliteral : Passes d (q :: (body ++ [q])) d := .literal hq hbody (.nil d)
  simpa using passes_append hliteral hs

/-- Behind a comma a part begins. -/
theorem comma (h : SplitsInto 0 s first others) : SplitsInto 0 (',' :: s) [] (first :: others) where
  join := by
    rw [List.intercalate_cons_cons, h.join]
    rfl
  first := .nil 0
  others := List.forall_mem_cons.2 ⟨h.first, h.others⟩

/-- The literals of a text of such parts are closed, and no parenthesis closes early. -/
theorem exists_outside (h : SplitsInto d s first others) :
    ∃ o, Outside s o ∧ Balances d o 0 := by
  obtain ⟨rfl, hfirst, hothers⟩ := h
  induction others generalizing d first with
  | nil =>
    rw [List.intercalate_singleton]
    exact hfirst.exists_outside
  | cons other others ih =>
    obtain ⟨o, ho, hbalances⟩ := hfirst.exists_outside
    obtain ⟨hother, hothers⟩ := List.forall_mem_cons.1 hothers
    obtain ⟨p, hp, hbalances'⟩ := ih hother hothers
    refine ⟨o ++ ',' :: p, ?_, hbalances.append ?_⟩
    · rw [List.intercalate_cons_cons, List.append_assoc]
      exact ho.append (.char (by decide) hp)
    · exact (Balances.other_iff (by decide) (by decide)).2 hbalances'

/-- The parts are what the loop takes of the text. -/
theorem splitFrom?_eq (h : SplitsInto d s first others) (hdepth : depth.toInt = d)
    (htext : At text start (cur ++ s)) :
    splitFrom? text depth start (start + byteSize cur) args s =
      some (.ok (args ++ (cur ++ first) :: others)) := by
  obtain ⟨rfl, hfirst, hothers⟩ := h
  -- By induction on the parts: behind a comma `start` is the offset there and `cur` is empty.
  induction others generalizing d depth start cur first args with
  | nil =>
    rw [List.intercalate_singleton] at htext ⊢
    obtain ⟨depth', hdepth', heq⟩ := hfirst.splitFrom?_append hdepth (start + byteSize cur) []
    rw [List.append_nil] at heq
    rw [heq, splitFrom?_nil hdepth' htext]
  | cons other others ih =>
    obtain ⟨hother, hothers⟩ := List.forall_mem_cons.1 hothers
    obtain ⟨depth', hdepth', heq⟩ := hfirst.splitFrom?_append hdepth (start + byteSize cur)
      (',' :: [','].intercalate (other :: others))
    rw [List.intercalate_cons_cons, List.append_assoc, List.singleton_append] at htext ⊢
    rw [← List.append_assoc] at htext
    have hpart : slice? text start (start + byteSize cur + byteSize first) =
        some (cur ++ first) := by
      rw [Nat.add_assoc, ← byteSize_append]
      exact htext.slice?_append
    have hnext : At text (start + byteSize cur + byteSize first + 1)
        ([] ++ [','].intercalate (other :: others)) := by
      rw [Nat.add_assoc start, ← byteSize_append]
      exact htext.append.cons_of_isAscii rfl
    rw [heq, splitFrom?_cut hdepth' hpart, List.append_cons args _ (other :: others)]
    exact ih hdepth' hother hothers hnext

end SplitsInto

/-- What is accepted consists of parts. -/
theorem exists_splitsInto (h : splitFrom? text depth start i args s = some (.ok parts))
    (hdepth : depth.toInt = d) : ∃ first others, SplitsInto d s first others := by
  fun_induction splitFrom? text depth start i args s generalizing d with
  | case1 => cases h
  | case2 depth _ _ _ hzero =>
    rw [depth_eq_zero_iff.1 (not_not.1 hzero)] at hdepth
    obtain rfl : d = 0 := by omega
    exact ⟨[], [], .nil⟩
  | case3 => cases h
  | case4 depth start i args q s hq j rest hskip _ ih =>
    rw [skipQuoted_eq] at hskip
    split at hskip
    · next body rest' hbody =>
      obtain ⟨-, rfl⟩ := Prod.mk.inj (Except.ok.inj hskip)
      obtain ⟨first, others, hrest⟩ := ih h hdepth
      obtain rfl := quoted?_eq_some hbody
      exact ⟨_, others, hrest.literal hq (isContent_of_quoted? hbody)⟩
    · cases hskip
  | case5 depth start i args s _ ih =>
    obtain ⟨inner, hadd, h⟩ := Option.bind_eq_some_iff.1 h
    have hinner : inner.toInt = depth.toInt + 1 := addDepth?_eq_some_iff.1 hadd
    have hlt := inner.toInt_lt
    obtain ⟨first, others, hs⟩ := ih inner (d := d + 1) h (by omega)
    exact ⟨_, others, SplitsInto.passes_append (.opening (by omega) (.nil _)) hs⟩
  | case6 depth start i args s _ _ ih =>
    obtain ⟨outer, hadd, h⟩ := Option.bind_eq_some_iff.1 h
    have houter : outer.toInt = depth.toInt + -1 := addDepth?_eq_some_iff.1 hadd
    split at h
    · cases h
    · next hnot =>
      rw [Int32.lt_iff_toInt_lt, Int32.toInt_zero] at hnot
      obtain ⟨d', rfl⟩ : ∃ d', d = d' + 1 := ⟨d - 1, by omega⟩
      obtain ⟨first, others, hs⟩ := ih outer (d := d') h (by omega)
      exact ⟨_, others, SplitsInto.passes_append (.closing (.nil _)) hs⟩
  | case7 depth start i args c s _ _ _ hcomma ih =>
    obtain ⟨rfl, hzero⟩ := hcomma
    obtain ⟨part, -, h⟩ := Option.bind_eq_some_iff.1 h
    rw [depth_eq_zero_iff.1 hzero] at hdepth
    obtain rfl : d = 0 := by omega
    obtain ⟨first, others, hs⟩ := ih part h (depth_eq_zero_iff.1 hzero)
    exact ⟨[], first :: others, hs.comma⟩
  | case8 depth start i args c s hq hopen hclose hcomma ih =>
    obtain ⟨first, others, hs⟩ := ih h hdepth
    have hcut : ¬(c = ',' ∧ d = 0) := fun hzero =>
      hcomma ⟨hzero.1, depth_eq_zero_iff.2 (by omega)⟩
    exact ⟨_, others, SplitsInto.passes_append (.other hq hopen hclose hcut (.nil _)) hs⟩

/-- A text whose literals are closed and whose parentheses balance consists of parts, if the
depth fits. -/
theorem exists_splitsInto_of_outside {o : List Char} (h : Outside s o) (hbalances : Balances d o 0)
    (hlt : d + o.count '(' < 2 ^ 31) : ∃ first others, SplitsInto d s first others := by
  induction h generalizing d with
  | nil =>
    obtain rfl : d = 0 := by simpa using hbalances.ends
    exact ⟨[], [], .nil⟩
  | @literal q body s o hq hbody _ ih =>
    obtain ⟨first, others, hs⟩ := ih hbalances hlt
    exact ⟨_, others, hs.literal hq hbody⟩
  | @char c s o hq _ ih =>
    by_cases hopen : c = '('
    · subst hopen
      rw [List.count_cons_self] at hlt
      obtain ⟨first, others, hs⟩ := ih (Balances.opening_iff.1 hbalances) (by omega)
      exact ⟨_, others, SplitsInto.passes_append (.opening (by omega) (.nil _)) hs⟩
    rw [List.count_cons_of_ne hopen] at hlt
    by_cases hclose : c = ')'
    · subst hclose
      obtain ⟨d', rfl, hrest⟩ := Balances.closing_iff.1 hbalances
      obtain ⟨first, others, hs⟩ := ih hrest (by omega)
      exact ⟨_, others, SplitsInto.passes_append (.closing (.nil _)) hs⟩
    obtain ⟨first, others, hs⟩ := ih ((Balances.other_iff hopen hclose).1 hbalances) hlt
    by_cases hcomma : c = ',' ∧ d = 0
    · obtain ⟨rfl, rfl⟩ := hcomma
      exact ⟨[], first :: others, hs.comma⟩
    · exact ⟨_, others, SplitsInto.passes_append (.other hq hopen hclose hcomma (.nil _)) hs⟩

/-- A text consists of parts just if it can be split, as long as the depth fits. -/
theorem exists_splitsInto_iff (hlt : s.count '(' < 2 ^ 31) :
    (∃ first others, SplitsInto 0 s first others) ↔ IsSplittable s := by
  rw [isSplittable_iff]
  constructor
  · rintro ⟨first, others, h⟩
    exact h.exists_outside
  · rintro ⟨o, ho, hbalances⟩
    have hle := ho.sublist.count_le '('
    exact exists_splitsInto_of_outside ho hbalances (by omega)

/-! ## Agreement with the pieces -/

/-- What stands behind the last comma goes in front of the first part. -/
def pushPart (part : List Char) : List (List Char) → List (List Char)
  | [] => [part]
  | first :: parts => (part ++ first) :: parts

theorem map_pushFirst (p : Piece) (args : List (List Char)) (part : List Char)
    (x : Except ArgumentError (List (List Piece))) :
    ((x.map (Argument.pushFirst p)).map fun parts =>
        args ++ pushPart part (parts.map Argument.text)) =
      x.map fun parts => args ++ pushPart (part ++ p.text) (parts.map Argument.text) := by
  cases x with
  | error e => rfl
  | ok parts =>
    cases parts with
    | nil => simp [Except.map, pushPart, Argument.pushFirst, Argument.text]
    | cons first parts => simp [Except.map, pushPart, Argument.pushFirst, Argument.text]

theorem pushPart_nil {closed : Bool} {ps : List Piece} {parts : List (List Piece)}
    (h : Argument.split closed d ps = .ok parts) :
    pushPart [] (parts.map Argument.text) = parts.map Argument.text := by
  obtain ⟨first, others, rfl⟩ := List.exists_cons_of_ne_nil (Argument.joinWith_of_split h).1
  rfl

theorem offset_append (start : Nat) (cur u : List Char) :
    start + byteSize cur + byteSize u = start + byteSize (cur ++ u) := by
  rw [byteSize_append, Nat.add_assoc]

/-- The loop and the splitting of pieces agree in front of a piece that belongs to the part
that has begun. -/
theorem splitFrom?_push {p : Piece} {ps : List Piece} {closed : Bool} {rest : List Char}
    (hstep : splitFrom? text depth start (start + byteSize cur) args s =
      splitFrom? text depth' start (start + byteSize (cur ++ p.text)) args rest)
    (hsplit : Argument.split closed d (p :: ps) =
      (Argument.split closed d' ps).map (Argument.pushFirst p))
    (ih : splitFrom? text depth' start (start + byteSize (cur ++ p.text)) args rest =
      some ((Argument.split closed d' ps).map fun parts =>
        args ++ pushPart (cur ++ p.text) (parts.map Argument.text))) :
    splitFrom? text depth start (start + byteSize cur) args s =
      some ((Argument.split closed d (p :: ps)).map fun parts =>
        args ++ pushPart cur (parts.map Argument.text)) := by
  rw [hstep, ih, hsplit, map_pushFirst]

/-- They agree at the end of the text. -/
theorem splitFrom?_end (htext : At text start cur) (hdepth : depth.toInt = d) :
    splitFrom? text depth start i args [] =
      some ((Argument.split true d []).map fun parts =>
        args ++ pushPart cur (parts.map Argument.text)) := by
  cases d with
  | zero =>
    rw [splitFrom?_nil hdepth htext]
    show _ = some (Except.ok (args ++ [cur ++ []]))
    rw [List.append_nil]
  | succ d =>
    have hne : depth ≠ 0 := fun heq => by
      have hzero := depth_eq_zero_iff.1 heq
      omega
    rw [splitFrom?, if_pos hne]
    rfl

/-- They agree in front of a comma that cuts if they agree behind it. -/
theorem splitFrom?_comma {ps : List Piece} {closed : Bool}
    (htext : At text start (cur ++ ',' :: s)) (hdepth : depth.toInt = 0)
    (ih : splitFrom? text depth (start + byteSize cur + 1) (start + byteSize cur + 1)
        (args ++ [cur]) s =
      some ((Argument.split closed 0 ps).map fun parts =>
        args ++ [cur] ++ pushPart [] (parts.map Argument.text))) :
    splitFrom? text depth start (start + byteSize cur) args (',' :: s) =
      some ((Argument.split closed 0 (.char ',' :: ps)).map fun parts =>
        args ++ pushPart cur (parts.map Argument.text)) := by
  rw [splitFrom?_cut hdepth htext.slice?_append, ih, Argument.split, if_pos rfl]
  cases hsplit : Argument.split closed 0 ps with
  | error e => rfl
  | ok parts =>
    show some (Except.ok (args ++ [cur] ++ pushPart [] (parts.map Argument.text))) =
      some (Except.ok (args ++ (cur ++ []) :: parts.map Argument.text))
    rw [pushPart_nil hsplit, List.append_nil cur, ← List.append_cons args cur]

/-- The loop splits the text as its pieces are split, with the same errors. -/
theorem splitFrom?_eq (htext : At text start (cur ++ s)) (hdepth : depth.toInt = d)
    (hlt : d + s.count '(' < 2 ^ 31) :
    splitFrom? text depth start (start + byteSize cur) args s =
      some ((Argument.split (Argument.read s).2.isEmpty d (Argument.read s).1).map fun parts =>
        args ++ pushPart cur (parts.map Argument.text)) := by
  fun_induction Argument.read s generalizing depth d start cur args with
  | case1 =>
    rw [List.append_nil] at htext
    exact splitFrom?_end htext hdepth
  | case2 q s hq body rest hbody _ _ _ hread ih =>
    have hs := quoted?_eq_some hbody
    have hrest : At text start (cur ++ (Piece.literal q body).text ++ rest) := by
      rw [hs] at htext
      simpa [Piece.text] using htext
    have hcount : rest.count '(' ≤ (q :: s).count '(' := by
      rw [hs]
      exact ((List.sublist_append_right (q :: body ++ [q]) rest).count_le '(').trans (by simp)
    rw [hread] at ih
    refine splitFrom?_push ?_ ?_ (ih hrest hdepth (by omega))
    · rw [splitFrom?_literal hq hbody, offset_append]
      rfl
    · exact Argument.split_of_ne (p := .literal q body) (by simp) (by simp) (by simp) _ _ _
  | case3 q s hq hnone =>
    rw [splitFrom?_unclosed hq hnone]
    rfl
  | case4 c s hq ps tail hread ih =>
    rw [hread] at ih
    have hrest : At text start (cur ++ (Piece.char c).text ++ s) := by
      rwa [List.append_assoc]
    have hnext : start + byteSize cur + c.utf8Size = start + byteSize (cur ++ [c]) := by
      simpa using offset_append start cur [c]
    by_cases hopen : c = '('
    · subst hopen
      rw [List.count_cons_self] at hlt
      obtain ⟨inner, hinner⟩ := exists_depth (d := d + 1) (by omega)
      have hstep : inner.toInt = depth.toInt + 1 := by omega
      refine splitFrom?_push ?_ (by rw [Argument.split]) (ih hrest hinner (by omega))
      rw [splitFrom?_opening hstep]
      exact congrArg (splitFrom? text inner start · args s) hnext
    rw [List.count_cons_of_ne hopen] at hlt
    by_cases hclose : c = ')'
    · subst hclose
      cases d with
      | zero =>
        rw [splitFrom?_early hdepth]
        rfl
      | succ d =>
        obtain ⟨outer, houter⟩ := exists_depth (d := d) (by omega)
        have hstep : depth.toInt = outer.toInt + 1 := by omega
        refine splitFrom?_push ?_ (by rw [Argument.split]) (ih hrest houter (by omega))
        rw [splitFrom?_closing hstep (by omega)]
        exact congrArg (splitFrom? text outer start · args s) hnext
    by_cases hcomma : c = ',' ∧ d = 0
    · obtain ⟨rfl, rfl⟩ := hcomma
      have hbehind : At text (start + byteSize cur + 1) ([] ++ s) :=
        htext.append.cons_of_isAscii rfl
      exact splitFrom?_comma htext hdepth (ih hbehind hdepth hlt)
    · have hdepth' : ¬(c = ',' ∧ depth.toInt = 0) := fun h => hcomma ⟨h.1, by omega⟩
      have hsplit : Argument.split tail.isEmpty d (.char c :: ps) =
          (Argument.split tail.isEmpty d ps).map (Argument.pushFirst (.char c)) := by
        by_cases hc : c = ','
        · subst hc
          rw [Argument.split, if_neg fun hd => hcomma ⟨rfl, hd⟩]
        · exact Argument.split_of_ne (by simpa using hopen) (by simpa using hclose)
            (by simpa using hc) _ _ _
      refine splitFrom?_push ?_ hsplit (ih hrest hdepth hlt)
      rw [splitFrom?_other hq hopen hclose hdepth']
      exact congrArg (splitFrom? text depth start · args s) hnext

end ByteScan

/-! ## Splitting -/

variable {text : String} {parts : List String}

/-- Splitting by offsets is splitting the pieces, with the same errors. -/
theorem byteSplit_eq (hlt : text.toList.count '(' < 2 ^ 31) :
    byteSplit text = some (splitArguments text) := by
  have htext : ByteScan.At text.toList 0 ([] ++ text.toList) := ByteScan.At.start text.toList
  have hsplit : ByteScan.splitFrom? text.toList 0 0 0 [] text.toList =
      some ((Argument.split (Argument.read text.toList).2.isEmpty 0
        (Argument.read text.toList).1).map fun parts =>
          [] ++ ByteScan.pushPart [] (parts.map Argument.text)) :=
    ByteScan.splitFrom?_eq htext Int32.toInt_zero (by rwa [Nat.zero_add])
  rw [byteSplit, splitArguments]
  refine (congrArg (Option.map _) hsplit).trans ?_
  cases h : Argument.split (Argument.read text.toList).2.isEmpty 0
    (Argument.read text.toList).1 with
  | error e => simp [h, Except.map]
  | ok parts =>
    simp [h, Except.map, ByteScan.pushPart_nil h, Argument.shown]

/-- The parts of a text are what it is split into. -/
theorem ByteScan.SplitsInto.byteSplit_eq {first : List Char} {others : List (List Char)}
    (h : SplitsInto 0 text.toList first others) :
    byteSplit text = some (.ok ((first :: others).map String.ofList)) := by
  have htext : At text.toList 0 ([] ++ text.toList) := At.start text.toList
  have hsplit : splitFrom? text.toList 0 0 0 [] text.toList =
      some (.ok ([] ++ ([] ++ first) :: others)) := h.splitFrom?_eq rfl htext
  rw [byteSplit, hsplit]
  rfl

theorem exists_of_byteSplit (h : byteSplit text = some (.ok parts)) :
    ∃ first others, ByteScan.SplitsInto 0 text.toList first others ∧
      parts = (first :: others).map String.ofList := by
  obtain ⟨result, hresult, hmap⟩ := Option.map_eq_some_iff.1 h
  obtain ⟨ps, rfl, -⟩ := map_eq_ok hmap
  obtain ⟨first, others, hparts⟩ := ByteScan.exists_splitsInto (d := 0) hresult rfl
  refine ⟨first, others, hparts, ?_⟩
  rw [hparts.byteSplit_eq] at h
  exact (Except.ok.inj (Option.some.inj h)).symm

/-- A text is accepted just if it can be split. -/
theorem exists_byteSplit_iff (hlt : text.toList.count '(' < 2 ^ 31) :
    (∃ parts, byteSplit text = some (.ok parts)) ↔ IsSplittable text.toList := by
  rw [← ByteScan.exists_splitsInto_iff hlt]
  constructor
  · rintro ⟨parts, h⟩
    obtain ⟨first, others, hparts, -⟩ := exists_of_byteSplit h
    exact ⟨first, others, hparts⟩
  · rintro ⟨first, others, h⟩
    exact ⟨_, h.byteSplit_eq⟩

/-- A text is one part just if it is passed. -/
theorem byteSplit_eq_singleton_iff :
    byteSplit text = some (.ok [text]) ↔ ByteScan.Passes 0 text.toList 0 := by
  constructor
  · intro h
    obtain ⟨first, others, hparts, heq⟩ := exists_of_byteSplit h
    obtain ⟨hfirst, hothers⟩ := List.cons.inj heq
    obtain rfl := List.map_eq_nil_iff.1 hothers.symm
    rw [hfirst, String.toList_ofList]
    exact hparts.first
  · intro h
    have hparts : ByteScan.SplitsInto 0 text.toList text.toList [] :=
      ⟨List.intercalate_singleton, h, List.forall_mem_nil _⟩
    simpa using hparts.byteSplit_eq

/-- Accepted parts with commas between them are split again. -/
theorem byteSplit_eq_ok_iff : byteSplit text = some (.ok parts) ↔
    parts ≠ [] ∧ ",".intercalate parts = text ∧
      ∀ part ∈ parts, byteSplit part = some (.ok [part]) := by
  simp only [byteSplit_eq_singleton_iff]
  constructor
  · intro h
    obtain ⟨first, others, ⟨hjoin, hfirst, hothers⟩, rfl⟩ := exists_of_byteSplit h
    refine ⟨nofun, ?_, ?_⟩
    · rw [← String.toList_inj, String.toList_intercalate, ← hjoin]
      simp [Function.comp_def]
    · simpa using ⟨hfirst, hothers⟩
  · rintro ⟨hne, rfl, hparts⟩
    obtain ⟨first, others, rfl⟩ := List.exists_cons_of_ne_nil hne
    obtain ⟨hfirst, hothers⟩ := List.forall_mem_cons.1 hparts
    have hsplits : ByteScan.SplitsInto 0 (",".intercalate (first :: others)).toList first.toList
        (others.map String.toList) :=
      ⟨by simp [String.toList_intercalate], hfirst, by simpa using hothers⟩
    rw [hsplits.byteSplit_eq, ← List.map_cons, List.map_map]
    simp [Function.comp_def]

/-- A comma is cut at just if the text before it can be split. -/
theorem isSplittable_iff_of_byteSplit {front back : String} (h : byteSplit text = some (.ok parts))
    (hlt : text.toList.count '(' < 2 ^ 31) (htext : text = front ++ "," ++ back) :
    IsSplittable front.toList ↔ ∃ before after, before ≠ [] ∧ after ≠ [] ∧ parts = before ++ after ∧
      front = ",".intercalate before ∧ back = ",".intercalate after := by
  subst htext
  have hlist : (front ++ "," ++ back).toList = front.toList ++ ',' :: back.toList := by simp
  have hcount := congrArg (List.count '(') hlist
  rw [List.count_append, List.count_cons_of_ne (by decide)] at hcount
  constructor
  · intro hfront
    have hback : IsSplittable back.toList :=
      IsSplittable.of_append (hlist ▸ (exists_byteSplit_iff hlt).1 ⟨parts, h⟩) hfront
    obtain ⟨before, hbefore⟩ := (exists_byteSplit_iff (by omega)).2 hfront
    obtain ⟨after, hafter⟩ := (exists_byteSplit_iff (by omega)).2 hback
    obtain ⟨hne, hjoin, hparts⟩ := byteSplit_eq_ok_iff.1 hbefore
    obtain ⟨hne', hjoin', hparts'⟩ := byteSplit_eq_ok_iff.1 hafter
    have hsplit : byteSplit (front ++ "," ++ back) = some (.ok (before ++ after)) := by
      refine byteSplit_eq_ok_iff.2 ⟨by simp [hne], ?_, ?_⟩
      · rw [String.intercalate_append_of_ne_nil hne hne', hjoin, hjoin']
      · exact List.forall_mem_append.2 ⟨hparts, hparts'⟩
    rw [h] at hsplit
    obtain rfl := Except.ok.inj (Option.some.inj hsplit)
    exact ⟨before, after, hne, hne', rfl, hjoin.symm, hjoin'.symm⟩
  · rintro ⟨before, after, hbefore, -, rfl, hfront, -⟩
    obtain ⟨-, -, hparts⟩ := byteSplit_eq_ok_iff.1 h
    have hsplit : byteSplit front = some (.ok before) :=
      byteSplit_eq_ok_iff.2 ⟨hbefore, hfront.symm, (List.forall_mem_append.1 hparts).1⟩
    exact (exists_byteSplit_iff (by omega)).1 ⟨before, hsplit⟩

/-- Splitting cuts at the commas outside of literals and parentheses.  With fewer than 2^31
opening parentheses the depth fits: a text is accepted just if its literals are closed and its
parentheses pair up, and it is cut at a comma just if this holds of what stands before.  The
parts with commas between them are the text, and they are the texts that are one part. -/
theorem byteSplit_cuts (text : String) :
    (text.toList.count '(' < 2 ^ 31 →
      byteSplit text = some (splitArguments text) ∧
      ((∃ parts, byteSplit text = some (.ok parts)) ↔ IsSplittable text.toList) ∧
      ∀ parts, byteSplit text = some (.ok parts) → ∀ front back, text = front ++ "," ++ back →
        (IsSplittable front.toList ↔ ∃ before after, before ≠ [] ∧ after ≠ [] ∧
          parts = before ++ after ∧ front = ",".intercalate before ∧
            back = ",".intercalate after)) ∧
    ∀ parts, byteSplit text = some (.ok parts) ↔
      parts ≠ [] ∧ ",".intercalate parts = text ∧
        ∀ part ∈ parts, byteSplit part = some (.ok [part]) := by
  refine ⟨fun hlt => ⟨byteSplit_eq hlt, exists_byteSplit_iff hlt, ?_⟩, fun parts =>
    byteSplit_eq_ok_iff⟩
  intro parts h front back htext
  exact isSplittable_iff_of_byteSplit h hlt htext

/-- Commas and parentheses in literals, and a comma in parentheses. -/
theorem byteSplit_cuts_nested :
    "a, (\"b(\", 'c'), \"d\\\", e\"".toList.count '(' < 2 ^ 31 ∧
      byteSplit "a, (\"b(\", 'c'), \"d\\\", e\"" =
        some (.ok ["a", " (\"b(\", 'c')", " \"d\\\", e\""]) ∧
      IsSplittable "a, (\"b(\", 'c'), \"d\\\", e\"".toList ∧
      IsSplittable "a, (\"b(\", 'c')".toList ∧ ¬IsSplittable "a, (\"b(\"".toList := by
  have hlt : "a, (\"b(\", 'c'), \"d\\\", e\"".toList.count '(' < 2 ^ 31 := by decide
  obtain ⟨heq, haccepted, hcuts⟩ := (byteSplit_cuts "a, (\"b(\", 'c'), \"d\\\", e\"").1 hlt
  have hsplit : splitArguments "a, (\"b(\", 'c'), \"d\\\", e\"" =
      .ok ["a", " (\"b(\", 'c')", " \"d\\\", e\""] := by decide +kernel
  rw [hsplit] at heq
  refine ⟨hlt, heq, haccepted.1 ⟨_, heq⟩, ?_, ?_⟩
  · refine (hcuts _ heq _ " \"d\\\", e\"" (by decide)).2
      ⟨["a", " (\"b(\", 'c')"], [" \"d\\\", e\""], ?_⟩
    decide
  · intro h
    obtain ⟨hfront, haccepted, -⟩ := (byteSplit_cuts "a, (\"b(\"").1 (by decide)
    obtain ⟨parts, hparts⟩ := haccepted.2 h
    have herror : splitArguments "a, (\"b(\"" = .error .unbalancedParentheses := by decide +kernel
    rw [hfront, herror] at hparts
    cases hparts

end FlashStrings
