import FlashStrings.Proofs.ByteScan.Directives
import FlashStrings.Proofs.ByteScan.Lines

/-!
# Steps by byte offsets

From matching states both scans take the same step (`Matches.step?_eq`), with one difference:
where a character begins nothing, the scan by offsets goes on one byte only.  Then it is
inside of that character while the other scan is behind it, and it takes a step for each byte
that is left (`step?_of_wide`).  `Follows` is what holds all along: the scan by offsets is
where the scan by characters is, or bytes outside of the ASCII range before
(`Follows.step?_eq`).
-/

namespace FlashStrings

namespace ByteScan

/-! ## Before a cursor -/

/-- A name that ends at an offset begins where it begins among the characters. -/
theorem nameStart_eq (before after : List Char) :
    nameStart (utf8 (before.reverse ++ after)) (byteSize before.reverse) =
      byteSize (before.dropWhile isNameChar).reverse := by
  induction before generalizing after with
  | nil => rfl
  | cons d before ih =>
    have hat : At ((d :: before).reverse ++ after) (byteSize before.reverse) (d :: after) :=
      ⟨before.reverse, by simp, rfl⟩
    cases hd : isNameChar d with
    | true =>
      have hascii := isAscii_of_isNameChar hd
      have hsize : byteSize (d :: before).reverse = byteSize before.reverse + 1 := by
        rw [List.reverse_cons, byteSize_append, byteSize_cons_of_isAscii hascii, byteSize_nil]
      rw [hsize, nameStart, hat.byteAt?_of_isAscii hascii, Option.any_some, if_pos hd,
        List.dropWhile_cons_of_pos hd, List.reverse_cons, List.append_assoc]
      exact ih (d :: after)
    | false =>
      obtain ⟨k, e, hk, he, hlast⟩ := hat.byteAt?_last
      have hname : isNameChar e = false := by
        rcases hlast with ⟨-, rfl⟩ | ⟨-, hwide⟩
        · exact hd
        · exact eq_false_of_ne_true fun he => by simp [isAscii_of_isNameChar he] at hwide
      have hsize : byteSize (d :: before).reverse = byteSize before.reverse + k + 1 := by
        rw [List.reverse_cons, byteSize_append, byteSize_cons, byteSize_nil, hk]
        rfl
      rw [List.dropWhile_cons_of_neg (by simp [hd]), hsize, nameStart, he, Option.any_some, hname]
      rfl

/-- What stands before an offset tells a digit separator. -/
theorem isDigitSeparator_eq (c : Cursor) :
    isDigitSeparator (utf8 c.text) (byteSize c.before.reverse) = Scan.isDigitSeparator c := by
  have hbefore : c.before.reverse =
      (c.before.dropWhile isNameChar).reverse ++ (c.before.takeWhile isNameChar).reverse := by
    rw [← List.reverse_append, List.takeWhile_append_dropWhile]
  have hat : At c.text (byteSize (c.before.dropWhile isNameChar).reverse)
      ((c.before.takeWhile isNameChar).reverse ++ c.after) :=
    ⟨_, by rw [Cursor.text, hbefore, List.append_assoc], rfl⟩
  rw [isDigitSeparator, Cursor.text, nameStart_eq, ← Cursor.text, Scan.isDigitSeparator,
    ← List.head?_reverse]
  cases hname : (c.before.takeWhile isNameChar).reverse with
  | nil =>
    rw [hbefore, hname, List.append_nil]
    simp
  | cons d name =>
    have hlt : byteSize (c.before.dropWhile isNameChar).reverse < byteSize c.before.reverse := by
      have := d.utf8Size_pos
      rw [hbefore, hname, byteSize_append, byteSize_cons]
      omega
    rw [hname] at hat
    rw [hat.byteAt?_cons, Option.any_some, apply_lead fun e he =>
      isAscii_of_isNameChar (isNameChar_of_isDigit he), decide_eq_true hlt]
    rfl

/-- What stands before an offset tells the start of a line. -/
theorem atLineStart_eq (c : Cursor) :
    atLineStart (utf8 c.text) (byteSize c.before.reverse) = c.atLineStart := by
  have htake : (utf8 c.text).take (byteSize c.before.reverse) = utf8 c.before.reverse := by
    rw [Cursor.text, utf8_append]
    exact List.take_left
  rw [atLineStart, htake, Cursor.atLineStart, Cursor.lineBefore]
  generalize c.before = before
  induction before with
  | nil => rfl
  | cons d before ih =>
    rw [List.reverse_cons, utf8_append, utf8_cons, utf8_nil, List.append_nil, List.reverse_append,
      List.map_append]
    cases hd : isAscii d with
    | true =>
      obtain ⟨b, hb, hbd⟩ := utf8EncodeChar_of_isAscii hd
      rw [hb, List.reverse_singleton, List.map_singleton, hbd, List.singleton_append]
      by_cases hnewline : d = '\n'
      · simp [hnewline]
      · have hne : (d != '\n') = true := bne_iff_ne.2 hnewline
        simp only [List.takeWhile_cons, hne, if_true, List.all_cons, ih]
    | false =>
      have hblank : ∀ e, isAscii e = false →
          (e != '\n') = true ∧ (e == ' ' || e == '\t' || e == '\r') = false := by
        intro e he
        refine ⟨bne_iff_ne.2 fun hn => ?_, eq_false_of_ne_true fun hb => ?_⟩
        · rw [hn] at he
          cases he
        · simp only [Bool.or_eq_true, beq_iff_eq] at hb
          rcases hb with (rfl | rfl) | rfl <;> cases he
      obtain ⟨b, more, hmore⟩ := List.exists_cons_of_ne_nil
        (show (String.utf8EncodeChar d).reverse ≠ [] by
          obtain ⟨b, bytes, hb, -⟩ := exists_utf8EncodeChar d
          simp [hb])
      have hb : b ∈ String.utf8EncodeChar d :=
        List.mem_reverse.1 (hmore ▸ List.mem_cons_self)
      obtain ⟨hbnewline, hbblank⟩ := hblank _ (isAscii_of_mem_utf8EncodeChar hd hb)
      obtain ⟨hnewline, hdblank⟩ := hblank d hd
      simp only [hmore, List.map_cons, List.cons_append, List.takeWhile_cons, hbnewline, hnewline,
        if_true, List.all_cons, hbblank, hdblank, Bool.false_and]

section Matches

variable {settings : ScanSettings} {σ : State} {τ : Scan.State} {c : Char} {s : List Char}

/-! ## Invocations -/

/-- Both scans are in the body of the definition, or behind it. -/
theorem Matches.lt_bodyEnd_iff (h : Matches σ τ) (hafter : τ.cursor.after = c :: s) :
    σ.pos < σ.bodyEnd ↔ τ.cursor.offset < τ.body.stop := by
  rw [h.pos, h.bodyEnd, Cursor.text]
  rcases Nat.lt_or_ge τ.cursor.offset τ.body.stop with hlt | hge
  · obtain ⟨n, hn⟩ := Nat.exists_eq_add_of_lt hlt
    have hpos := c.utf8Size_pos
    refine iff_of_true ?_ hlt
    rw [hn, Nat.add_assoc, Cursor.offset, ← List.length_reverse, List.take_length_add_append,
      hafter, byteSize_append, List.take_succ_cons, byteSize_cons]
    omega
  · refine iff_of_false (Nat.not_lt.2 ?_) (Nat.not_lt.2 hge)
    have hbefore := List.take_append_drop τ.body.stop τ.cursor.before.reverse
    rw [List.take_append_of_le_length (by rwa [List.length_reverse])]
    calc byteSize (τ.cursor.before.reverse.take τ.body.stop)
        ≤ byteSize (τ.cursor.before.reverse.take τ.body.stop) +
          byteSize (τ.cursor.before.reverse.drop τ.body.stop) := Nat.le_add_right _ _
      _ = byteSize τ.cursor.before.reverse := by rw [← byteSize_append, hbefore]

theorem Matches.forwards?_eq (h : Matches σ τ) (hafter : τ.cursor.after = c :: s) {ps : List Piece}
    (hps : ∀ p ∈ ps, Argument.ReadsBack p) : forwards? σ σ.pos (Argument.text ps) =
      some (τ.cursor.offset < τ.body.stop && Argument.mentions τ.body.params [] ps) := by
  rw [forwards?, mentions?_text _ hps, h.params]
  by_cases hlt : τ.cursor.offset < τ.body.stop
  · rw [if_pos ((h.lt_bodyEnd_iff hafter).2 hlt), decide_eq_true hlt, Bool.true_and]
  · rw [if_neg (mt (h.lt_bodyEnd_iff hafter).1 hlt), decide_eq_false hlt, Bool.false_and]

theorem Matches.record (h : Matches σ τ) (r : Record) :
    Matches { σ with records := σ.records ++ [r] } { τ with found := .record r :: τ.found } where
  pos := h.pos
  bodyEnd := h.bodyEnd
  params := h.params
  records := by simp [h.records, recordsOf]
  errors := by simp [h.errors, errorsOf]

theorem Matches.refused (h : Matches σ τ) (e : ParseError) :
    Matches { σ with errors := σ.errors ++ [e] } { τ with found := .refused e :: τ.found } where
  pos := h.pos
  bodyEnd := h.bodyEnd
  params := h.params
  records := by simp [h.records, recordsOf]
  errors := by simp [h.errors, errorsOf]

theorem Matches.location?_eq (h : Matches σ τ) (settings : ScanSettings) :
    location? settings.file τ.cursor.text σ.pos = some (Scan.location settings τ.cursor) :=
  h.pos ▸ ByteScan.location?_eq settings.file τ.cursor

/-- A name and a parenthesis behind it stand at the cursor, with a gap between them. -/
structure Opens (c : Cursor) (word gap args : List Char) : Prop where
  after_eq : c.after = word ++ (gap ++ '(' :: args)
  word_eq : (word ++ (gap ++ '(' :: args)).takeWhile isNameChar = word

namespace Opens

variable {word gap args : List Char}

theorem at_word (ho : Opens τ.cursor word gap args) (h : Matches σ τ) :
    At τ.cursor.text σ.pos (word ++ (gap ++ '(' :: args)) := ho.after_eq ▸ h.at_after

theorem byteSize_take (ho : Opens τ.cursor word gap args) (n : Nat) :
    byteSize (τ.cursor.after.take (word.length + gap.length + 1 + n)) =
      byteSize word + byteSize gap + 1 + byteSize (args.take n) := by
  rw [ho.after_eq, Nat.add_assoc, Nat.add_assoc, byteSize_take_append, byteSize_take_append,
    Nat.add_comm 1 n, List.take_succ_cons, byteSize_cons_of_isAscii rfl]
  omega

/-- Both scans refuse an invocation alike. -/
theorem refused?_eq (ho : Opens τ.cursor word gap args) (h : Matches σ τ) (pos : Nat)
    (error : ArgumentError) :
    ∃ σ', refused? τ.cursor.text { σ with pos } (Scan.location settings τ.cursor) σ.pos
        (σ.pos + byteSize word + byteSize gap) error = some σ' ∧
      Matches σ' ⟨τ.cursor.advance (word.length + gap.length + 1), τ.body,
        (Scan.invocation.refuse settings τ.cursor (String.ofList word) error).1.toList ++
          τ.found⟩ := by
  have hat := ho.at_word h
  rw [refused?]
  simp only [Option.bind_eq_bind, Option.bind_some, Scan.location, lineText?_eq,
    hat.nameEnd_eq ho.word_eq, hat.slice?_append]
  refine ⟨_, rfl, Matches.refused (h.advance (word.length + gap.length + 1) ?_) _⟩
  have hsize := ho.byteSize_take 0
  rw [List.take_zero, byteSize_nil] at hsize
  rw [hsize]
  omega

/-- Both scans find the same at an invocation, and go on behind it. -/
theorem invocation?_eq (ho : Opens τ.cursor word gap args) (h : Matches σ τ)
    (settings : ScanSettings) (kind : RecordKind) (pos : Nat) (hne : word ≠ []) :
    ∃ σ', invocation? settings τ.cursor.text { σ with pos } kind σ.pos
        (σ.pos + byteSize word + byteSize gap) = some σ' ∧
      Matches σ'
        ⟨τ.cursor.advance (word.length + gap.length + 1 +
            (Scan.invocation settings τ.cursor τ.body kind (String.ofList word) args).2),
          τ.body,
          (Scan.invocation settings τ.cursor τ.body kind (String.ofList word) args).1.toList ++
            τ.found⟩ := by
  obtain ⟨c, more, rfl⟩ := List.exists_cons_of_ne_nil hne
  have hat := ho.at_word h
  rw [invocation?, h.location?_eq, Option.bind_eq_bind, Option.bind_some, invoked?,
    hat.append.append.arguments?_eq, Scan.invocation]
  cases hextract : Argument.extract args with
  | error e => exact ho.refused?_eq h pos e
  | ok read =>
    obtain ⟨ps, width⟩ := read
    have hps := readsBack_of_collect hextract (List.forall_mem_nil _)
    have hforwards : forwards? { σ with pos } σ.pos (Argument.text ps) = _ :=
      h.forwards?_eq ho.after_eq hps
    have hadvance : Matches
        { σ with pos := σ.pos + byteSize (c :: more) + byteSize gap + 1 +
                   byteSize (args.take width) }
        { τ with cursor := τ.cursor.advance ((c :: more).length + gap.length + 1 + width) } := by
      refine h.advance _ ?_
      rw [ho.byteSize_take]
      omega
    simp only [Except.map, Option.bind_eq_bind, Option.bind_some, hforwards, readText_text _ _ hps]
    cases (decide (τ.cursor.offset < τ.body.stop) && Argument.mentions τ.body.params [] ps) with
    | true => exact ⟨_, rfl, hadvance⟩
    | false =>
      cases Scan.readArguments settings kind ps with
      | error e => exact ho.refused?_eq h pos e
      | ok read =>
        simp only [Bool.false_eq_true, if_false]
        exact ⟨_, rfl, hadvance.record _⟩

end Opens

/-! ## Names -/

/-- The characters of a name behind its first one, and what is behind them. -/
theorem exists_word (hc : isNameChar c = true) (s : List Char) :
    ∃ more rest, s = more ++ rest ∧ (more ++ rest).takeWhile isNameChar = more ∧
      (c :: more ++ rest).takeWhile isNameChar = c :: more := by
  obtain ⟨more, rest, rfl, hmore, -⟩ := exists_takeWhile isNameChar s
  exact ⟨more, rest, rfl, hmore, by rw [List.cons_append, List.takeWhile_cons_of_pos hc, hmore]⟩

/-- Both scans find the same at a name, and go on behind it. -/
theorem Matches.name?_eq (h : Matches σ τ) (settings : ScanSettings)
    (hafter : τ.cursor.after = c :: s) (hc : isNameChar c = true) :
    ∃ σ', name? settings τ.cursor.text σ = some σ' ∧
      Matches σ' ⟨τ.cursor.advance (Scan.name settings τ.cursor τ.body c s).width,
        (Scan.name settings τ.cursor τ.body c s).body,
        (Scan.name settings τ.cursor τ.body c s).found.toList ++ τ.found⟩ := by
  obtain ⟨more, rest, rfl, hmore, hword⟩ := exists_word hc s
  have hafter' : τ.cursor.after = c :: more ++ rest := hafter
  have hat := h.at_after
  rw [hafter'] at hat
  have hrest := hat.append
  have hlen : (c :: more).length = 1 + more.length := Nat.add_comm _ _
  have hadvance : Matches { σ with pos := σ.pos + byteSize (c :: more) }
      { τ with cursor := τ.cursor.advance (1 + more.length) } :=
    h.advance _ (by rw [← hlen, hafter', List.take_left])
  have hquote : byteAt? (utf8 τ.cursor.text) (σ.pos + byteSize (c :: more)) = some '"' ↔
      rest.head? = some '"' := hrest.byteAt?_eq_some_iff rfl
  simp only [name?, hat.nameEnd_eq hword, hat.slice?_append, Option.bind_eq_bind, Option.bind_some,
    hquote, Scan.name, hmore, List.drop_left, Bool.and_eq_true, beq_iff_eq]
  split
  · next hraw =>
    obtain ⟨tail, rfl⟩ := List.head?_eq_some_iff.1 hraw.1
    rw [hrest.rawStringEnd?_eq]
    refine ⟨_, rfl, h.advance _ ?_⟩
    rw [hafter']
    show _ = σ.pos + byteSize ((c :: more ++ '"' :: tail).take
      (1 + more.length + 1 + Lexeme.rawString tail))
    rw [← hlen, Nat.add_assoc (c :: more).length, byteSize_take_append, Nat.add_comm 1,
      List.take_succ_cons, byteSize_cons_of_isAscii (c := '"') rfl]
    omega
  · cases hkind : macroKind? (String.ofList (c :: more)) with
    | none => exact ⟨_, rfl, hadvance⟩
    | some kind =>
      have hmark : byteAt? (utf8 τ.cursor.text)
            (σ.pos + byteSize (c :: more) + byteSize (rest.take (Lexeme.trivia rest))) = some '(' ↔
          (rest.drop (Lexeme.trivia rest)).head? = some '(' :=
        (hrest.drop _).byteAt?_eq_some_iff rfl
      simp only [hrest.triviaEnd_eq, hmark]
      split
      · next hparen =>
        obtain ⟨args, hargs⟩ := List.head?_eq_some_iff.1 hparen
        have ho : Opens τ.cursor (c :: more) (rest.take (Lexeme.trivia rest)) args := {
          after_eq := by rw [← hargs, List.take_append_drop, hafter']
          word_eq := by rw [← hargs, List.take_append_drop, hword] }
        have hgap : (rest.take (Lexeme.trivia rest)).length = Lexeme.trivia rest := by
          have hlength := congrArg List.length hargs
          rw [List.length_drop, List.length_cons] at hlength
          rw [List.length_take]
          omega
        obtain ⟨σ', hσ', hmatches⟩ := ho.invocation?_eq h settings kind _ (List.cons_ne_nil _ _)
        refine ⟨σ', hσ', ?_⟩
        rw [hgap, hlen] at hmatches
        simp only [hargs]
        exact hmatches
      · next hparen =>
        refine ⟨_, rfl, ?_⟩
        split
        · next hargs => simp [hargs] at hparen
        · exact hadvance

/-! ## Steps -/

theorem isAscii_of_isNameStart (h : isNameStart c = true) : isAscii c = true :=
  isAscii_of_isNameChar (isNameChar_of_isNameStart h)

theorem isAscii_of_isDigit (h : c.isDigit = true) : isAscii c = true :=
  isAscii_of_isNameChar (isNameChar_of_isDigit h)

/-- Both scans take the same step, but that a character that begins no other step is one
byte to the scan by offsets. -/
theorem Matches.step?_eq (h : Matches σ τ) (settings : ScanSettings)
    (hafter : τ.cursor.after = c :: s) :
    ∃ σ' τ', step? settings τ.cursor.text σ (lead c) = some σ' ∧
      τ.next? settings = some τ' ∧
      (Matches σ' τ' ∨
        σ' = { σ with pos := σ.pos + 1 } ∧ Matches { σ with pos := σ.pos + c.utf8Size } τ') := by
  have hat := h.at_after
  rw [hafter] at hat
  have hseparator : isDigitSeparator (utf8 τ.cursor.text) σ.pos =
      Scan.isDigitSeparator τ.cursor := h.pos ▸ isDigitSeparator_eq τ.cursor
  have hstart : atLineStart (utf8 τ.cursor.text) σ.pos = τ.cursor.atLineStart :=
    h.pos ▸ atLineStart_eq τ.cursor
  have hadvance : ∀ n, Matches { σ with pos := σ.pos + byteSize ((c :: s).take n) }
      { τ with cursor := τ.cursor.advance n } := fun n => h.advance n (by rw [hafter])
  have hquote : lead c = '\'' ↔ c = '\'' := lead_eq_iff rfl
  have hmark : lead c = '#' ↔ c = '#' := lead_eq_iff rfl
  have hname := apply_lead (fun d => isAscii_of_isNameStart) c
  have hdigit := apply_lead (fun d => isAscii_of_isDigit) c
  simp only [Scan.State.next?_of_after hafter, step?, Scan.step, hseparator, hstart, hquote, hmark,
    hname, hdigit, Bool.and_eq_true, decide_eq_true_eq]
  split
  · next hquote =>
    obtain rfl := hquote.1
    exact ⟨_, _, rfl, rfl, .inl (hadvance 1)⟩
  split
  · next hmark =>
    obtain rfl := hmark.1
    obtain ⟨σ', hstep, hmatches⟩ := h.directive?_eq hafter
    refine ⟨σ', _, hstep, rfl, .inl ?_⟩
    rw [Scan.found_directive]
    exact hmatches
  split
  · next hname =>
    obtain ⟨σ', hstep, hmatches⟩ := h.name?_eq settings hafter (isNameChar_of_isNameStart hname)
    exact ⟨σ', _, hstep, rfl, .inl hmatches⟩
  split
  · next hdigit =>
    obtain ⟨more, rest, rfl, hmore, hword⟩ := exists_word (isNameChar_of_isDigit hdigit) s
    have hend : nameEnd (utf8 τ.cursor.text) σ.pos = σ.pos + byteSize (c :: more) :=
      hat.nameEnd_eq hword
    have htake : (c :: (more ++ rest)).take (1 + more.length) = c :: more := by
      rw [Nat.add_comm, List.take_succ_cons, List.take_left]
    refine ⟨_, _, rfl, rfl, .inl ?_⟩
    simp only [hend, hmore]
    exact htake ▸ hadvance (1 + more.length)
  · rcases hat.lexemeEnd_eq with hend | ⟨hwidth, hend⟩
    · exact ⟨_, _, rfl, rfl, .inl (hend ▸ hadvance _)⟩
    · rw [hend]
      refine ⟨_, _, rfl, rfl, .inr ⟨rfl, ?_⟩⟩
      simpa [hwidth] using hadvance 1

/-! ## Inside of characters -/

/-- A scan by offsets stands where a scan by characters stands, or inside of the character
before. -/
def Follows (σ : State) (τ : Scan.State) : Prop :=
  ∃ k, Matches { σ with pos := σ.pos + k } τ ∧
    ∀ j < k, ∃ d, byteAt? (utf8 τ.cursor.text) (σ.pos + j) = some d ∧ isAscii d = false

theorem Matches.follows (h : Matches σ τ) : Follows σ τ :=
  ⟨0, h, fun j hj => absurd hj (Nat.not_lt_zero j)⟩

/-- No step leads out of the text. -/
theorem Follows.pos_le (h : Follows σ τ) : σ.pos ≤ byteSize τ.cursor.text := by
  obtain ⟨k, hmatches, -⟩ := h
  have hpos : σ.pos + k = byteSize τ.cursor.before.reverse := hmatches.pos
  rw [Cursor.text, byteSize_append]
  omega

/-- Inside of a character a step is over one byte. -/
theorem step?_of_wide {text : List Char} (settings : ScanSettings) (σ : State)
    (hbyte : byteAt? (utf8 text) σ.pos = some c) (hc : isAscii c = false) :
    step? settings text σ c = some { σ with pos := σ.pos + 1 } := by
  have hne : ∀ mark, isAscii mark = true → c ≠ mark := by
    rintro mark hmark rfl
    simp [hc] at hmark
  have hclass : ∀ p : Char → Bool, (∀ d, p d = true → isAscii d = true) → ¬p c = true := by
    intro p hp htrue
    simp [hp c htrue] at hc
  rw [step?, if_neg fun h => hne _ rfl h.1, if_neg fun h => hne _ rfl h.1,
    if_neg (hclass _ fun d => isAscii_of_isNameStart),
    if_neg (hclass _ fun d => isAscii_of_isDigit), lexemeEnd_of_wide hbyte hc]

/-- A scan by offsets takes its steps along those of a scan by characters: each leads to a
state that follows the same state or the next one. -/
theorem Follows.step?_eq (h : Follows σ τ) (settings : ScanSettings)
    (hbyte : byteAt? (utf8 τ.cursor.text) σ.pos = some c) :
    ∃ σ' τ', step? settings τ.cursor.text σ c = some σ' ∧ Follows σ' τ' ∧
      (τ' = τ ∨ τ.next? settings = some τ') := by
  obtain ⟨k, hmatches, hwide⟩ := h
  cases k with
  | zero =>
    replace hmatches : Matches σ τ := hmatches
    have hat := hmatches.at_after
    cases hafter : τ.cursor.after with
    | nil =>
      rw [hafter] at hat
      simp [hat.byteAt?_nil] at hbyte
    | cons d s =>
      rw [hafter] at hat
      obtain rfl : lead d = c := Option.some.inj (hat.byteAt?_cons.symm.trans hbyte)
      obtain ⟨σ', τ', hstep, hnext, hmatches' | ⟨rfl, hmatches'⟩⟩ :=
        hmatches.step?_eq settings hafter
      · exact ⟨σ', τ', hstep, hmatches'.follows, .inr hnext⟩
      · obtain ⟨k, -, hk, -⟩ := hat.byteAt?_last
        have htext := Scan.State.Reaches.text_eq (.single hnext)
        refine ⟨_, τ', hstep, ⟨k, ?_, fun j hj => ?_⟩, .inr hnext⟩
        · rwa [hk, Nat.add_comm k, ← Nat.add_assoc] at hmatches'
        · rw [htext, Nat.add_assoc]
          exact hat.byteAt?_inside (Nat.add_pos_left Nat.one_pos j) (by omega)
  | succ k =>
    obtain ⟨d, hd, hascii⟩ := hwide 0 (Nat.succ_pos k)
    obtain rfl := Option.some.inj (hbyte.symm.trans hd)
    refine ⟨_, τ, step?_of_wide settings σ hbyte hascii, ⟨k, ?_, fun j hj => ?_⟩, .inl rfl⟩
    · rwa [Nat.add_comm k, ← Nat.add_assoc] at hmatches
    · rw [Nat.add_assoc, Nat.add_comm 1]
      exact hwide (j + 1) (Nat.succ_lt_succ hj)

end Matches

end ByteScan

end FlashStrings
