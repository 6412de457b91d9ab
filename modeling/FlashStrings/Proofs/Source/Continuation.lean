import FlashStrings.Proofs.Invocation.Pieces
import FlashStrings.Proofs.Source.Records
import FlashStrings.Proofs.Text.Quoted

/-!
# Continued lines inside of an invocation

A backslash before a newline continues a directive and a line comment, but
between the tokens of an invocation it is a character like any other.  Behind the
macro name it stands where the opening parenthesis is expected, and among the
arguments it is foreign.  So an invocation that is broken at a gap between two of
its tokens never gives a record (`BrokenAtGap.no_record`), not even in the body
of a definition, whose lines can only be continued in this way.

`Argument.Lexed` says which texts end at such a gap: they are read as whole
lexemes, whatever follows.
-/

namespace FlashStrings

/-! ## Lexemes before any text -/

namespace Lexeme

theorem blockComment_cons {c : Char} {s : List Char} (h : ¬(c = '*' ∧ s.head? = some '/')) :
    blockComment (c :: s) = blockComment s + 1 := by
  rw [blockComment]
  rintro u rfl rfl
  exact h ⟨rfl, rfl⟩

/-- A block comment that is closed at the end of a text is closed before any
other text. -/
theorem blockComment_append {body : List Char}
    (h : blockComment (body ++ ['*', '/']) = body.length + 2) (t : List Char) :
    blockComment (body ++ '*' :: '/' :: t) = body.length + 2 := by
  induction body with
  | nil => rfl
  | cons c body ih =>
    have hopen : ¬(c = '*' ∧ (body ++ ['*', '/']).head? = some '/') := by
      rintro ⟨rfl, hslash⟩
      obtain ⟨u, hu⟩ := List.head?_eq_some_iff.1 hslash
      rw [List.cons_append, hu] at h
      simp [blockComment] at h
    rw [List.cons_append, blockComment_cons hopen, List.length_cons] at h
    rw [List.cons_append, blockComment_cons, ih (by omega), List.length_cons]
    · cases body with
      | nil => simp
      | cons d body => exact hopen

end Lexeme

namespace Argument

/-! ## Arguments up to a gap -/

/-- The text is read as whole lexemes, whatever stands behind it: these pieces,
between the depths of parentheses before and behind it. -/
inductive Lexed : Nat → List Char → List Piece → Nat → Prop where
  | nil {depth : Nat} : Lexed depth [] [] depth
  | char {depth depth' : Nat} {c : Char} {s : List Char} {ps : List Piece} :
    c ∉ ['(', ')', '"', '\'', '/'] → Lexed depth s ps depth' →
    Lexed depth (c :: s) (.char c :: ps) depth'
  | opening {depth depth' : Nat} {s : List Char} {ps : List Piece} :
    Lexed (depth + 1) s ps depth' → Lexed depth ('(' :: s) (.char '(' :: ps) depth'
  | closing {depth depth' : Nat} {s : List Char} {ps : List Piece} :
    Lexed depth s ps depth' → Lexed (depth + 1) (')' :: s) (.char ')' :: ps) depth'
  | literal {depth depth' : Nat} {q : Char} {body s : List Char} {ps : List Piece} :
    q = '"' ∨ q = '\'' → quoted? q (body ++ [q]) = some (body, []) → Lexed depth s ps depth' →
    Lexed depth (q :: (body ++ q :: s)) (.literal q body :: ps) depth'
  | comment {depth depth' : Nat} {body s : List Char} {ps : List Piece} :
    Lexeme.blockComment (body ++ ['*', '/']) = body.length + 2 → Lexed depth s ps depth' →
    Lexed depth ('/' :: '*' :: (body ++ '*' :: '/' :: s)) (.char ' ' :: ps) depth'

theorem lexed_map_char (depth : Nat) {s : List Char}
    (h : ∀ c ∈ s, c ∉ ['(', ')', '"', '\'', '/']) : Lexed depth s (s.map .char) depth := by
  induction s with
  | nil => exact .nil
  | cons c s ih =>
    obtain ⟨hc, hs⟩ := List.forall_mem_cons.1 h
    exact .char hc (ih hs)

section

variable {depth width : Nat} {found : List Piece} {c : Char} {s : List Char}

theorem collect_of_quoted? {q : Char} {body rest : List Char} (hq : q = '"' ∨ q = '\'')
    (hbody : quoted? q s = some (body, rest)) :
    collect depth found width (q :: s) =
      collect depth (.literal q body :: found) (width + body.length + 2) rest := by
  have hopen : q ≠ '(' := by rcases hq with rfl | rfl <;> decide
  have hclose : q ≠ ')' := by rcases hq with rfl | rfl <;> decide
  rw [collect.eq_def]
  dsimp only
  rw [if_neg hopen, if_neg hclose, if_pos hq]
  split
  · next heq =>
    obtain ⟨rfl, rfl⟩ := Prod.mk.inj (Option.some.inj (hbody.symm.trans heq))
    rfl
  · next heq => simp [hbody] at heq

theorem collect_of_comment? {n : Nat} (hn : Lexeme.comment? s = some n) :
    collect depth found width s = collect depth (.char ' ' :: found) (width + n) (s.drop n) := by
  cases s with
  | nil => cases hn
  | cons c s =>
    obtain rfl : c = '/' := Decidable.by_contra fun hne => by
      simp [Lexeme.comment?_of_ne hne] at hn
    rw [collect.eq_def]
    dsimp only
    rw [if_neg (by decide), if_neg (by decide), if_neg (by decide)]
    split
    · next heq =>
      obtain rfl := Option.some.inj (hn.symm.trans heq)
      rfl
    · next heq => simp [hn] at heq

theorem collect_of_none (hopen : c ≠ '(') (hclose : c ≠ ')') (hquote : ¬(c = '"' ∨ c = '\''))
    (hn : Lexeme.comment? (c :: s) = none) :
    collect depth found width (c :: s) = collect depth (.char c :: found) (width + 1) s := by
  rw [collect.eq_def]
  dsimp only
  rw [if_neg hopen, if_neg hclose, if_neg hquote]
  split
  · next heq => simp [hn] at heq
  · rfl

theorem collect_char (hc : c ∉ ['(', ')', '"', '\'', '/']) :
    collect depth found width (c :: s) = collect depth (.char c :: found) (width + 1) s := by
  simp only [List.mem_cons, List.not_mem_nil, or_false, not_or] at hc
  exact collect_of_none hc.1 hc.2.1 (by simp [hc]) (Lexeme.comment?_of_ne hc.2.2.2.2 s)

theorem collect_literal {q : Char} {body : List Char} (hq : q = '"' ∨ q = '\'')
    (hbody : quoted? q (body ++ [q]) = some (body, [])) :
    collect depth found width (q :: (body ++ q :: s)) =
      collect depth (.literal q body :: found) (width + body.length + 2) s :=
  collect_of_quoted? hq (by simpa using quoted?_append hbody s)

theorem collect_comment {body : List Char}
    (hbody : Lexeme.blockComment (body ++ ['*', '/']) = body.length + 2) :
    collect depth found width ('/' :: '*' :: (body ++ '*' :: '/' :: s)) =
      collect depth (.char ' ' :: found) (width + (body.length + 4)) s := by
  have hwidth : Lexeme.comment? ('/' :: '*' :: (body ++ '*' :: '/' :: s)) =
      some (body.length + 4) := by
    show some (Lexeme.blockComment (body ++ '*' :: '/' :: s) + 2) = _
    rw [Lexeme.blockComment_append hbody]
  rw [collect_of_comment? hwidth]
  simp

end

theorem collect_opening (depth width : Nat) (found : List Piece) (s : List Char) :
    collect depth found width ('(' :: s) =
      collect (depth + 1) (.char '(' :: found) (width + 1) s := by
  rw [collect.eq_def]
  exact if_pos rfl

theorem collect_closing (depth width : Nat) (found : List Piece) (s : List Char) :
    collect (depth + 1) found width (')' :: s) =
      collect depth (.char ')' :: found) (width + 1) s := by
  rw [collect.eq_def]
  rfl

/-- Reading goes over such a text to what follows it. -/
theorem Lexed.collect_append {depth depth' : Nat} {u : List Char} {ps : List Piece}
    (h : Lexed depth u ps depth') (found : List Piece) (width : Nat) (t : List Char) :
    collect depth found width (u ++ t) =
      collect depth' (ps.reverse ++ found) (width + u.length) t := by
  induction h generalizing found width with
  | nil => rfl
  | @char _ _ c s ps hc _ ih =>
    rw [List.cons_append, collect_char hc, ih, List.reverse_cons, List.append_assoc,
      List.length_cons, Nat.add_right_comm, Nat.add_assoc]
    rfl
  | @opening _ _ s _ _ ih =>
    rw [List.cons_append, collect_opening, ih, List.reverse_cons, List.append_assoc,
      List.length_cons, Nat.add_right_comm, Nat.add_assoc]
    rfl
  | @closing _ _ s _ _ ih =>
    rw [List.cons_append, collect_closing, ih, List.reverse_cons, List.append_assoc,
      List.length_cons, Nat.add_right_comm, Nat.add_assoc]
    rfl
  | @literal _ _ q body s ps hq hbody _ ih =>
    have htext : q :: (body ++ q :: s) ++ t = q :: (body ++ q :: (s ++ t)) := by simp
    have hlength : width + body.length + 2 + s.length = width + (q :: (body ++ q :: s)).length := by
      simp only [List.length_cons, List.length_append]
      omega
    rw [htext, collect_literal hq hbody, ih, List.reverse_cons, List.append_assoc, hlength]
    rfl
  | @comment _ _ body s ps hbody _ ih =>
    have htext : '/' :: '*' :: (body ++ '*' :: '/' :: s) ++ t =
        '/' :: '*' :: (body ++ '*' :: '/' :: (s ++ t)) := by simp
    have hlength : width + (body.length + 4) + s.length =
        width + ('/' :: '*' :: (body ++ '*' :: '/' :: s)).length := by
      simp only [List.length_cons, List.length_append]
      omega
    rw [htext, collect_comment hbody, ih, List.reverse_cons, List.append_assoc, hlength]
    rfl

/-- The argument text of an invocation ends at the parenthesis behind it. -/
theorem Lexed.extract_eq {u : List Char} {ps : List Piece} (h : Lexed 0 u ps 0) (t : List Char) :
    extract (u ++ ')' :: t) = .ok (ps, u.length + 1) := by
  rw [extract, h.collect_append, collect.eq_def]
  simp

/-- Pieces that were collected stand in front of all others. -/
theorem prefix_of_collect {depth width width' : Nat} {found ps : List Piece} {s : List Char}
    (h : collect depth found width s = .ok (ps, width')) : found.reverse <+: ps := by
  have cons {p : Piece} {found : List Piece} (ih : (p :: found).reverse <+: ps) :
      found.reverse <+: ps := by
    rw [List.reverse_cons] at ih
    exact (List.prefix_append _ _).trans ih
  fun_induction collect depth found width s with
  | case1 => cases h
  | case2 depth found width s ih => exact cons (ih h)
  | case3 found width s =>
    obtain ⟨rfl, -⟩ := Prod.mk.inj (Except.ok.inj h)
    exact List.prefix_rfl
  | case4 found width s depth _ ih => exact cons (ih h)
  | case5 depth found width c s _ _ _ body rest hbody _ ih => exact cons (ih h)
  | case6 => cases h
  | case7 depth found width c s _ _ _ n hn _ ih => exact cons (ih h)
  | case8 depth found width c s _ _ _ hn ih => exact cons (ih h)

theorem subset_of_collect {depth width width' : Nat} {found ps : List Piece} {s : List Char}
    (h : collect depth found width s = .ok (ps, width')) : found ⊆ ps := fun _ hp =>
  (prefix_of_collect h).subset (List.mem_reverse.2 hp)

/-- A backslash behind whole lexemes is among the pieces. -/
theorem backslash_mem_of_extract {u rest : List Char} {ps qs : List Piece} {depth width : Nat}
    (hu : Lexed 0 u qs depth) (h : extract (u ++ '\\' :: rest) = .ok (ps, width)) :
    .char '\\' ∈ ps := by
  have hbackslash : '\\' ∉ ['(', ')', '"', '\'', '/'] := by decide
  rw [extract, hu.collect_append, collect_char hbackslash] at h
  exact subset_of_collect h List.mem_cons_self

end Argument

namespace Scan

variable {settings : ScanSettings} {c : Cursor} {body : DefineBody}

/-- The text behind a macro name is an invocation up to a gap between two of its
tokens, and a backslash stands there: behind the name, or among the arguments. -/
inductive BrokenAtGap (s : List Char) : Prop where
  | behindName : (s.drop (Lexeme.trivia s)).head? = some '\\' → BrokenAtGap s
  | amongArguments {u rest : List Char} {ps : List Piece} {depth : Nat} :
    s.drop (Lexeme.trivia s) = '(' :: (u ++ '\\' :: rest) → Argument.Lexed 0 u ps depth →
    BrokenAtGap s

theorem invocation_ne_record {kind : RecordKind} {name : String} {u rest : List Char}
    {ps : List Piece} {depth : Nat} (hu : Argument.Lexed 0 u ps depth) (r : Record) :
    (invocation settings c body kind name (u ++ '\\' :: rest)).1 ≠ some (.record r) := by
  intro h
  rw [invocation] at h
  split at h
  · cases h
  · next qs width hextract =>
    have hmem := Argument.backslash_mem_of_extract hu hextract
    split at h
    · cases h
    · split at h
      · cases h
      · next hread =>
        exact Argument.readAll_ne_ok hmem (by decide) _ (readArguments_eq_ok hread).1

/-- An invocation that is broken at a gap gives no record. -/
theorem BrokenAtGap.no_record {first : Char} {s : List Char}
    (h : BrokenAtGap (s.drop (s.takeWhile isNameChar).length)) (r : Record) :
    (name settings c body first s).found ≠ some (.record r) := by
  intro hfound
  simp only [name] at hfound
  split at hfound
  · cases hfound
  · split at hfound
    · cases hfound
    · split at hfound
      · next args hargs =>
        cases h with
        | behindName hhead =>
          rw [hargs] at hhead
          cases hhead
        | amongArguments hsplit hu =>
          obtain rfl := (List.cons.inj (hargs.symm.trans hsplit)).2
          exact invocation_ne_record hu r hfound
      · cases hfound

/-! ### A definition in two lines -/

/-- A definition whose body is one invocation, in one line. -/
def oneLine : String := "#define T FSPGM(title, \"Title\")\n"

/-- The same definition, continued behind the comma. -/
def twoLines : String := "#define T FSPGM(title, \\\n    \"Title\")\n"

theorem trivia_parenthesis (s : List Char) : Lexeme.trivia ('(' :: s) = 0 := by
  rw [Lexeme.trivia]
  rfl

theorem BrokenAtGap.no_record_sample :
    let behindName := '(' :: ("title, ".toList ++ '\\' :: "\n    \"Title\")\n".toList)
    BrokenAtGap behindName ∧
      ∀ r, (name ⟨"a.cpp", ∅⟩ (.start (twoLines.toList.drop 10)) {} 'F'
        ("SPGM".toList ++ behindName)).found ≠ some (.record r) := by
  intro behindName
  have hu : Argument.Lexed 0 "title, ".toList ("title, ".toList.map .char) 0 :=
    Argument.lexed_map_char 0 (by simp)
  have h : BrokenAtGap behindName :=
    .amongArguments (by rw [trivia_parenthesis, List.drop_zero]) hu
  exact ⟨h, fun r => BrokenAtGap.no_record (s := "SPGM".toList ++ behindName) h r⟩

/-- The definition in one line gives a record, and the continued one an error. -/
theorem scan_twoLines :
    (recordsOf (scan ⟨"a.cpp", ∅⟩ oneLine)).map (·.identifier) = ["title"] ∧
      recordsOf (scan ⟨"a.cpp", ∅⟩ twoLines) = [] ∧
      (errorsOf (scan ⟨"a.cpp", ∅⟩ twoLines)).map (·.macroName) = ["FSPGM"] := by
  refine ⟨by decide +kernel, by decide +kernel, by decide +kernel⟩

end Scan

end FlashStrings
