import FlashStrings.Proofs.ByteScan.Locations
import FlashStrings.Proofs.CharScan.Arguments
import FlashStrings.Proofs.Invocation.Refused

/-!
# Invocations that are open

The scan takes the arguments of an invocation byte by byte and then reads their text by
characters.  Both agree on the literals and the parentheses as long as the depth of
parentheses fits 32 bits: when the arguments were taken, they are split at their commas, and
reading them meets no unclosed literal and gives neither of the errors that say that
something is open (`CharScan.arguments_of_closed`).  So a scan gives these two errors only
for an invocation that is open in the source (`Argument.IsOpen`).

The depth is not bounded where the arguments are taken.  So more parentheses than the
splitting can count are taken but not split, and a quote in a number opens a literal there
as it does not in the rest of the code (`CharScan.arguments_not_closed`).
-/

namespace FlashStrings

open ByteScan

/-- The errors that say that something is open. -/
def ArgumentError.saysOpen : ArgumentError → Bool
  | .unterminatedString | .unbalancedParentheses => true
  | _ => false

namespace Argument

/-- The text behind the opening parenthesis of an invocation does not close it.  Literals
and comments stand as a whole, `depth` counts the parentheses that are open inside of the
invocation, and the error says what ends the text: its end, or a literal that is not
closed. -/
inductive IsOpen : Nat → List Char → ArgumentError → Prop where
  | ended {depth : Nat} : IsOpen depth [] .unbalancedParentheses
  | unclosed {depth : Nat} {q : Char} {s : List Char} :
    q = '"' ∨ q = '\'' → quoted? q s = none → IsOpen depth (q :: s) .unterminatedString
  | opening {depth : Nat} {s : List Char} {e : ArgumentError} :
    IsOpen (depth + 1) s e → IsOpen depth ('(' :: s) e
  | closing {depth : Nat} {s : List Char} {e : ArgumentError} :
    IsOpen depth s e → IsOpen (depth + 1) (')' :: s) e
  | literal {depth : Nat} {q : Char} {s body rest : List Char} {e : ArgumentError} :
    q = '"' ∨ q = '\'' → quoted? q s = some (body, rest) → IsOpen depth rest e →
    IsOpen depth (q :: s) e
  | comment {depth n : Nat} {s : List Char} {e : ArgumentError} :
    Lexeme.comment? s = some n → IsOpen depth (s.drop n) e → IsOpen depth s e
  | char {depth : Nat} {c : Char} {s : List Char} {e : ArgumentError} :
    c ∉ ['(', ')', '"', '\''] → Lexeme.comment? (c :: s) = none → IsOpen depth s e →
    IsOpen depth (c :: s) e

variable {s : List Char} {e : ArgumentError} {ps : List Piece} {depth width width' : Nat}

/-- Arguments are not taken just where their invocation is open. -/
theorem isOpen_of_collect {found : List Piece}
    (h : collect depth found width s = .error e) : IsOpen depth s e := by
  fun_induction collect depth found width s with
  | case1 =>
    obtain rfl := Except.error.inj h
    exact .ended
  | case2 depth found width s ih => exact .opening (ih h)
  | case3 => cases h
  | case4 found width s depth _ ih => exact .closing (ih h)
  | case5 depth found width c s _ _ hquote body rest hbody _ ih =>
    exact .literal hquote hbody (ih h)
  | case6 depth found width c s _ _ hquote hbody =>
    obtain rfl := Except.error.inj h
    exact .unclosed hquote hbody
  | case7 depth found width c s _ _ _ n hcomment _ ih => exact .comment hcomment (ih h)
  | case8 depth found width c s hopen hclose hquote hcomment ih =>
    rw [not_or] at hquote
    exact .char (by simp [hopen, hclose, hquote]) hcomment (ih h)

theorem exists_split_cons {p : Piece} (hopen : p ≠ .char '(') (hclose : p ≠ .char ')')
    {parts : List (List Piece)} (h : split true depth ps = .ok parts) :
    ∃ parts, split true depth (p :: ps) = .ok parts := by
  by_cases hcomma : p = .char ','
  · subst hcomma
    rw [split]
    split
    · next hdepth =>
      rw [← hdepth, h]
      exact ⟨_, rfl⟩
    · rw [h]
      exact ⟨_, rfl⟩
  · rw [split_of_ne hopen hclose hcomma, h]
    exact ⟨_, rfl⟩

/-- What was taken is split. -/
theorem exists_split_of_collect {found : List Piece}
    (h : collect depth found width s = .ok (ps, width')) :
    ∃ qs parts, ps = found.reverse ++ qs ∧ split true depth qs = .ok parts := by
  fun_induction collect depth found width s with
  | case1 => cases h
  | case2 depth found width s ih =>
    obtain ⟨qs, parts, rfl, hparts⟩ := ih h
    refine ⟨.char '(' :: qs, pushFirst (.char '(') parts, by simp, ?_⟩
    rw [split, hparts]
    rfl
  | case3 found width s =>
    obtain ⟨rfl, -⟩ := Prod.mk.inj (Except.ok.inj h)
    exact ⟨[], [[]], (List.append_nil _).symm, rfl⟩
  | case4 found width s depth _ ih =>
    obtain ⟨qs, parts, rfl, hparts⟩ := ih h
    refine ⟨.char ')' :: qs, pushFirst (.char ')') parts, by simp, ?_⟩
    rw [split, hparts]
    rfl
  | case5 depth found width c s _ _ hquote body rest hbody _ ih =>
    obtain ⟨qs, parts, rfl, hparts⟩ := ih h
    obtain ⟨parts, hparts⟩ := exists_split_cons (p := .literal c body) (fun heq => by cases heq)
      (fun heq => by cases heq) hparts
    exact ⟨_, parts, by simp, hparts⟩
  | case6 => cases h
  | case7 depth found width c s _ _ _ n hcomment _ ih =>
    obtain ⟨qs, parts, rfl, hparts⟩ := ih h
    obtain ⟨parts, hparts⟩ := exists_split_cons (p := .char ' ') (by decide) (by decide) hparts
    exact ⟨_, parts, by simp, hparts⟩
  | case8 depth found width c s hopen hclose hquote hcomment ih =>
    obtain ⟨qs, parts, rfl, hparts⟩ := ih h
    obtain ⟨parts, hparts⟩ :=
      exists_split_cons (p := .char c) (by simpa using hopen) (by simpa using hclose) hparts
    exact ⟨_, parts, by simp, hparts⟩

/-- What is taken has no more parentheses than the text that it is taken of. -/
theorem count_of_collect {found : List Piece}
    (h : collect depth found width s = .ok (ps, width')) :
    (text ps).count '(' ≤ (text found.reverse).count '(' + s.count '(' := by
  -- A piece moves from the text to what has been found; a comment leaves one space.
  fun_induction collect depth found width s with
  | case1 => cases h
  | case2 depth found width s ih =>
    have hle := ih h
    rw [List.reverse_cons, text_append, List.count_append, Nat.add_assoc,
      ← List.count_append] at hle
    exact hle
  | case3 found width s =>
    obtain ⟨rfl, -⟩ := Prod.mk.inj (Except.ok.inj h)
    exact Nat.le_add_right _ _
  | case4 depth found width s _ ih =>
    have hle := ih h
    rw [List.reverse_cons, text_append, List.count_append, Nat.add_assoc,
      ← List.count_append] at hle
    exact hle
  | case5 depth found width c s _ _ _ body rest hbody _ ih =>
    have hle := ih h
    have hliteral : c :: s = text [.literal c body] ++ rest := by
      rw [text_literal, quoted?_eq_some hbody]
      simp [text]
    rw [List.reverse_cons, text_append, List.count_append, Nat.add_assoc, ← List.count_append,
      ← hliteral] at hle
    exact hle
  | case6 => cases h
  | case7 depth found width c s _ _ _ n _ _ ih =>
    have hle := ih h
    have hdrop := (List.drop_sublist n (c :: s)).count_le '('
    rw [List.reverse_cons, text_append, List.count_append] at hle
    exact hle.trans (Nat.add_le_add_left hdrop _)
  | case8 depth found width c s _ _ _ _ ih =>
    have hle := ih h
    rw [List.reverse_cons, text_append, List.count_append, Nat.add_assoc,
      ← List.count_append] at hle
    exact hle

/-! ## Nested parentheses -/

/-- Pairs of parentheses, each inside of the one before. -/
def nested (n : Nat) : List Char := List.replicate n '(' ++ List.replicate n ')'

theorem lexed_openings {d : Nat} (n : Nat) (h : Lexed (depth + n) s ps d) :
    Lexed depth (List.replicate n '(' ++ s) ((List.replicate n '(').map .char ++ ps) d := by
  induction n generalizing depth with
  | zero => exact h
  | succ n ih => exact .opening (ih (by rwa [Nat.add_right_comm]))

theorem lexed_closings (n : Nat) :
    Lexed n (List.replicate n ')') ((List.replicate n ')').map .char) 0 := by
  induction n with
  | zero => exact .nil
  | succ n ih => exact .closing ih

theorem lexed_nested (n : Nat) : Lexed 0 (nested n) ((nested n).map .char) 0 := by
  rw [nested, List.map_append]
  refine lexed_openings n ?_
  rw [Nat.zero_add]
  exact lexed_closings n

/-! ## Errors of accepted texts -/

/-- The result is no error that says that something is open. -/
def Closed {α : Type} (x : Except ArgumentError α) : Prop :=
  ∀ e, x = .error e → e.saysOpen = false

/-- Only splitting gives an error that says that something is open. -/
theorem closed_readAll {defines : Defines} {closed : Bool} {parts : List (List Piece)}
    (h : split closed 0 ps = .ok parts) : Closed (readAll defines closed ps) := by
  intro e he
  have hany : OperandsHave defines (fun _ => True) ps := fun _ _ _ _ => trivial
  rcases refusal_of_readAll hany he with hsplit | hrefusal
  · rw [h] at hsplit
    cases hsplit
  · cases hrefusal <;> rfl

end Argument

/-! ## Reading what was taken -/

namespace ByteScan

variable {text s : List Char} {i : Nat} {c : Char}

/-- A byte of the ASCII range is a character. -/
theorem exists_at_of_byteAt? (h : byteAt? (utf8 text) i = some c) (hc : isAscii c = true) :
    ∃ s, At text i (c :: s) := by
  suffices hall : ∀ rest j, At text j rest → j ≤ i → ∃ s, At text i (c :: s) from
    hall text 0 (.start text) (Nat.zero_le i)
  intro rest
  induction rest with
  | nil =>
    intro j hj hle
    have hsize := hj.add_byteSize
    have hnone : byteAt? (utf8 text) i = none :=
      byteAt?_eq_none_iff.2 (show byteSize text ≤ i by rw [← hsize]; exact hle)
    simp [hnone] at h
  | cons d rest ih =>
    intro j hj hle
    obtain ⟨k, rfl⟩ := Nat.exists_eq_add_of_le hle
    by_cases hk : k < d.utf8Size
    · rcases Nat.eq_zero_or_pos k with rfl | hpos
      · obtain rfl := Option.some.inj (((hj.byteAt?_eq_some_iff hc).1 h))
        exact ⟨rest, hj⟩
      · obtain ⟨b, hb, hwide⟩ := hj.byteAt?_inside hpos hk
        obtain rfl := Option.some.inj (h.symm.trans hb)
        simp [hc] at hwide
    · exact ih (j + d.utf8Size) hj.cons (by omega)

/-- What was taken of a text is read without meeting anything open. -/
theorem read_of_arguments? {args : List Char} {stop : Nat}
    (h : At text i ('(' :: s)) (hargs : arguments? text i = some (.ok (args, stop))) :
    ∃ ps parts, args = Argument.text ps ∧ (∀ p ∈ ps, Argument.ReadsBack p) ∧
      Argument.split true 0 ps = .ok parts := by
  rw [h.arguments?_eq] at hargs
  obtain ⟨⟨ps, width⟩, hcollect, heq⟩ := map_eq_ok (Option.some.inj hargs)
  obtain ⟨rfl, -⟩ := Prod.mk.inj heq
  obtain ⟨qs, parts, hqs, hsplit⟩ := Argument.exists_split_of_collect hcollect
  obtain rfl : ps = qs := hqs
  exact ⟨ps, parts, rfl, readsBack_of_collect hcollect (fun _ h => by cases h), hsplit⟩

/-- The parentheses that are taken stand in the text. -/
theorem count_of_arguments? {args : List Char} {stop : Nat}
    (hbyte : byteAt? (utf8 text) i = some '(')
    (hargs : arguments? text i = some (.ok (args, stop))) : args.count '(' ≤ text.count '(' := by
  obtain ⟨s, hat⟩ := exists_at_of_byteAt? hbyte rfl
  rw [hat.arguments?_eq] at hargs
  obtain ⟨⟨ps, width⟩, hcollect, heq⟩ := map_eq_ok (Option.some.inj hargs)
  obtain ⟨rfl, -⟩ := Prod.mk.inj heq
  obtain ⟨front, rfl, -⟩ := hat
  have hle : (Argument.text ps).count '(' ≤ 0 + s.count '(' := Argument.count_of_collect hcollect
  have hsub : s.Sublist (front ++ '(' :: s) :=
    (List.sublist_cons_self '(' s).trans (List.sublist_append_right front _)
  rw [Nat.zero_add] at hle
  exact hle.trans (hsub.count_le '(')

/-- Nested parentheses are taken, however many they are. -/
theorem exists_arguments?_nested (n : Nat) : ∃ stop,
    arguments? ('(' :: (Argument.nested n ++ [')'])) 0 = some (.ok (Argument.nested n, stop)) := by
  have hextract := (Argument.lexed_nested n).extract_eq []
  rw [(At.start _).arguments?_eq, hextract, Except.map, Argument.text_map_char]
  exact ⟨_, rfl⟩

theorem splitFrom?_openings {depth : Int32} {d start : Nat} {args : List (List Char)} (n : Nat)
    (hdepth : depth.toInt = d) (h : 2 ^ 31 ≤ d + n) :
    splitFrom? text depth start i args (List.replicate n '(' ++ s) = none := by
  induction n generalizing depth d i with
  | zero =>
    have hlt := depth.toInt_lt
    omega
  | succ n ih =>
    rw [List.replicate_succ, List.cons_append, splitFrom?, if_neg (by decide), if_pos rfl]
    cases hadd : addDepth? depth 1 with
    | none => rfl
    | some inner =>
      have hinner : inner.toInt = (d + 1 : Nat) := by
        have hnext : inner.toInt = depth.toInt + 1 := addDepth?_eq_some_iff.1 hadd
        omega
      exact ih hinner (by omega)

end ByteScan

/-- The splitting does not count to 2^31. -/
theorem byteSplit_nested {n : Nat} (h : 2 ^ 31 ≤ n) :
    byteSplit (String.ofList (Argument.nested n)) = none := by
  rw [byteSplit, String.toList_ofList, Argument.nested,
    splitFrom?_openings n Int32.toInt_zero (by omega)]
  rfl

namespace Scan

variable {settings : ScanSettings} {source : String} {σ : State}

/-- No state that a scan reaches stands inside of a name. -/
theorem State.Reaches.parted (h : Reaches settings (initial source) σ) :
    Parted σ.cursor.before.reverse σ.cursor.after := by
  cases h with
  | refl => exact fun _ _ h => by cases h
  | tail _ hnext => exact parted_of_next? hnext

/-- An invocation that is refused because something is open is open. -/
theorem isOpen_of_invocation {c : Cursor} {body : DefineBody} {kind : RecordKind} {name : String}
    {args : List Char} {e : ParseError} (hopen : e.error.saysOpen = true)
    (h : (invocation settings c body kind name args).1 = some (.refused e)) :
    Argument.IsOpen 0 args e.error := by
  rw [invocation] at h
  split at h
  · next error hextract =>
    obtain rfl := Finding.refused.inj (Option.some.inj h)
    exact Argument.isOpen_of_collect hextract
  · next ps width hextract =>
    split at h
    · cases h
    split at h
    · next error hread =>
      obtain rfl := Finding.refused.inj (Option.some.inj h)
      obtain ⟨qs, parts, hqs, hsplit⟩ := Argument.exists_split_of_collect hextract
      obtain rfl : ps = qs := hqs
      rcases readArguments_eq_error hread with hread | hmissing
      · rw [Argument.closed_readAll hsplit error hread] at hopen
        cases hopen
      · rw [hmissing] at hopen
        cases hopen
    · cases h

/-- An error of a scan that says that something is open belongs to an invocation that is
open. -/
theorem exists_isOpen_of_mem_scan {e : ParseError} (he : .refused e ∈ scan settings source)
    (hopen : e.error.saysOpen = true) :
    ∃ i gap args, At (withoutMark source) i (e.macroName.toList ++ (gap ++ '(' :: args)) ∧
      ErrorAt settings.file (withoutMark source) e i ∧ Gap gap ∧
      Argument.IsOpen 0 args e.error := by
  obtain ⟨σ, first, s, hσ, hafter, hfound⟩ := State.exists_of_mem_scan he
  obtain ⟨kind, name, gap, args, hkind, htext, hgap, hinvocation⟩ := exists_of_found hfound
  have hsource : σ.cursor.text = withoutMark source := hσ.text_eq
  have herror : ErrorAt settings.file σ.cursor.text e (byteSize σ.cursor.before.reverse) := by
    rcases found_cases hafter hσ.parted hfound with ⟨r, hr, -⟩ | ⟨e', he', herror⟩
    · cases hr
    · obtain rfl := Finding.refused.inj he'
      exact herror
  have hname : e.macroName = name := by
    rcases invocation_cases hinvocation with ⟨r, hr, -⟩ | ⟨e', he', hname, -⟩
    · cases hr
    · obtain rfl := Finding.refused.inj he'
      exact hname
  refine ⟨_, gap, args, ⟨σ.cursor.before.reverse, ?_, rfl⟩, hsource ▸ herror, hgap,
    isOpen_of_invocation hopen hinvocation⟩
  rw [← hsource, Cursor.text, hafter, htext, hname]

end Scan

/-- When the arguments behind an opening parenthesis are taken, and fewer than 2^31
parentheses open in them, they are split at their commas, and reading them notes nothing and
gives no error that says that something is open.  A scan of a text with fewer than 2^31
opening parentheses gives such an error only for an invocation that is open. -/
theorem CharScan.arguments_of_closed (settings : ScanSettings) (source : String) :
    (∀ text i args stop, byteAt? (utf8 text) i = some '(' →
      arguments? text i = some (.ok (args, stop)) → args.count '(' < 2 ^ 31 →
      (∃ parts, byteSplit (String.ofList args) = some (.ok parts)) ∧
        ∃ reader, arguments settings.defines (String.ofList args) = some reader ∧
          ((∃ read, reader.run [] = .ok read [] ∧
              parseArguments settings.defines (String.ofList args) = .ok read) ∨
            ∃ e, reader.run [] = .error e [] ∧ e.saysOpen = false ∧
              parseArguments settings.defines (String.ofList args) = .error e)) ∧
      (source.toList.count '(' < 2 ^ 31 →
        ∃ records errors, byteScan settings source = some (records, errors) ∧
          (∀ i args stop, byteAt? (utf8 (withoutMark source)) i = some '(' →
            arguments? (withoutMark source) i = some (.ok (args, stop)) →
            args.count '(' < 2 ^ 31) ∧
          ∀ e ∈ errors, e.error.saysOpen = true →
            ∃ i gap args, At (withoutMark source) i (e.macroName.toList ++ (gap ++ '(' :: args)) ∧
              ErrorAt settings.file (withoutMark source) e i ∧ Gap gap ∧
              Argument.IsOpen 0 args e.error) := by
  constructor
  · intro text i args stop hbyte hargs hlt
    obtain ⟨s, hat⟩ := exists_at_of_byteAt? hbyte rfl
    obtain ⟨ps, parts, rfl, hreads, hsplit⟩ := read_of_arguments? hat hargs
    have hread := Argument.read_text hreads
    have hlt' : (String.ofList (Argument.text ps)).toList.count '(' < 2 ^ 31 := by
      rwa [String.toList_ofList]
    refine ⟨⟨parts.map Argument.shown, ?_⟩, _, arguments_eq settings.defines hlt', ?_⟩
    · rw [byteSplit_eq hlt', splitArguments, String.toList_ofList, hread]
      show some ((Argument.split true 0 ps).map _) = _
      rw [hsplit]
      rfl
    · have hparse : parseArguments settings.defines (String.ofList (Argument.text ps)) =
          Argument.readAll settings.defines true ps := by
        rw [parseArguments, String.toList_ofList, hread]
        rfl
      rw [hparse]
      cases hall : Argument.readAll settings.defines true ps with
      | ok read => exact .inl ⟨read, rfl, rfl⟩
      | error e => exact .inr ⟨e, rfl, Argument.closed_readAll hsplit e hall, rfl⟩
  · intro hlt
    refine ⟨_, _, byteScan_eq settings source, fun i args stop hbyte hargs => ?_,
      fun e he hopen => ?_⟩
    · exact (count_of_arguments? hbyte hargs).trans_lt
        (((suffix_withoutMark source).sublist.count_le '(').trans_lt hlt)
    obtain ⟨x, hx, heq⟩ := List.mem_filterMap.1 he
    cases x with
    | record r => cases heq
    | refused e' =>
      obtain rfl := Option.some.inj heq
      exact Scan.exists_isOpen_of_mem_scan hx hopen

/-- Quotes in a comment and in a literal, and an invocation that a literal leaves open. -/
theorem CharScan.arguments_of_closed_sample :
    let text := "SPGM(t, \"é)\\\"\" /* \" */)".toList
    let args := "t, \"é)\\\"\"  ".toList
    byteAt? (utf8 text) 4 = some '(' ∧ arguments? text 4 = some (.ok (args, 24)) ∧
      args.count '(' < 2 ^ 31 ∧
      (∃ parts, byteSplit (String.ofList args) = some (.ok parts)) ∧
      "SPGM(t, \"a)".toList.count '(' < 2 ^ 31 ∧
      ∃ records errors, byteScan ⟨"a.c", ∅⟩ "SPGM(t, \"a)" = some (records, errors) ∧
        errors.map (·.error) = [.unterminatedString] ∧
        ∀ e ∈ errors, ∃ args, Argument.IsOpen 0 args e.error := by
  intro text args
  have hbyte : byteAt? (utf8 text) 4 = some '(' := by decide +kernel
  have hargs : arguments? text 4 = some (.ok (args, 24)) := by decide +kernel
  have hlt : args.count '(' < 2 ^ 31 := by decide
  have hlt' : "SPGM(t, \"a)".toList.count '(' < 2 ^ 31 := by decide
  obtain ⟨hclosed, hopen⟩ := arguments_of_closed ⟨"a.c", ∅⟩ "SPGM(t, \"a)"
  obtain ⟨records, errors, hscan, -, hopen⟩ := hopen hlt'
  have herrors : errors.map (·.error) = [.unterminatedString] := by
    have hmap : (byteScan ⟨"a.c", ∅⟩ "SPGM(t, \"a)").map (fun found => found.2.map (·.error)) =
        some [.unterminatedString] := by decide +kernel
    rw [hscan] at hmap
    exact Option.some.inj hmap
  refine ⟨hbyte, hargs, hlt, (hclosed text 4 args 24 hbyte hargs hlt).1, hlt', records, errors,
    hscan, herrors, fun e he => ?_⟩
  have hunterminated : e.error ∈ errors.map (·.error) := List.mem_map_of_mem he
  rw [herrors, List.mem_singleton] at hunterminated
  obtain ⟨i, gap, args, -, -, -, hargs⟩ := hopen e he (by rw [hunterminated]; rfl)
  exact ⟨args, hargs⟩

/-- Deeper parentheses are taken but not split.  A quote in a number separates digits where
no arguments are taken, and opens a literal where they are. -/
theorem CharScan.arguments_not_closed :
    (∃ stop, arguments? ('(' :: (Argument.nested (2 ^ 31 + 1) ++ [')'])) 0 =
        some (.ok (Argument.nested (2 ^ 31 + 1), stop))) ∧
      ¬(∃ parts, byteSplit (String.ofList (Argument.nested (2 ^ 31 + 1))) = some (.ok parts)) ∧
      isDigitSeparator (utf8 "SPGM(A, 1'000)\n".toList) 9 = true ∧
      (byteScan ⟨"a.c", ∅⟩ "SPGM(A, 1'000)\n").map (fun found => found.2.map (·.error)) =
        some [.unterminatedString] := by
  refine ⟨exists_arguments?_nested _, ?_, by decide +kernel, by decide +kernel⟩
  rw [byteSplit_nested (Nat.le_add_right _ 1)]
  exact nofun

end FlashStrings
