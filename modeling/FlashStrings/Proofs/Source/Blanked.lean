import FlashStrings.Proofs.Invocation.Blanks
import FlashStrings.Proofs.Source.Alike
import FlashStrings.Proofs.Source.Comments

/-!
# Comments count as white space

A block comment in one line may be replaced by as many spaces: the scan finds the same
records, and errors at the same places (`scan_blanked`).  The scan has to come to the comment
at its start wherever it reads it (`Scan.Meets`).  In the head of a directive it does not: it
takes only blanks between the mark and the names there, and the parameters of a definition as
they are written.  Nor may the comment stand alone before the mark (`Scan.LeadsMark`).

The scans go on alike in three parts.  Before the comment each step takes the same of both
texts (`Scan.StepMeets.sameMove`).  The comment is one step, and the spaces are as many steps
as they are characters.  Behind them the cursors look alike (`Scan.alike_behind`).
-/

namespace FlashStrings

/-- What is compared of findings: records, and where errors are and in which macro. -/
def Finding.outline : Finding → Record ⊕ (Location × String)
  | .record r => .inl r
  | .refused e => .inr (e.location, e.macroName)

/-- Findings that differ at most in the texts of lines and in the errors themselves. -/
def SameOutlines (found found' : List Finding) : Prop :=
  List.Forall₂ (fun x y => y.outline = x.outline) found found'

theorem outline_moved (found : Finding) (lineText : String) :
    (found.moved 0 lineText).outline = found.outline := by
  cases found <;> rfl

namespace Scan

open DirectiveParts (defines isReserved)

variable {settings : ScanSettings} {c c' : Cursor} {body : DefineBody} {first : Char}
  {v w s : List Char}

/-! ## What meets the comment -/

/-- The text behind the mark of a directive comes to the text `t` behind the head of the
directive. -/
inductive DirectiveMeets (t : List Char) : List Char → Prop where
  | other {s blanks name gap defined rest : List Char} :
    DirectiveParts s blanks name gap defined rest → defines name = false →
    name ++ (gap ++ (defined ++ rest)) ≠ [] → DirectiveMeets t s
  | line {s blanks name gap defined rest : List Char} :
    DirectiveParts s blanks name gap defined rest → defines name = true →
    defined ++ rest ≠ [] →
    (isReserved defined = false → ∀ list, rest = '(' :: list → ')' ∈ list) →
    Lexeme.LineMeets t rest → DirectiveMeets t s

/-- What the step reads at the cursor comes to the text `t` at its start, or ends before it. -/
inductive StepMeets (settings : ScanSettings) (t : List Char) (σ : State) : List Char → Prop where
  | token {first : Char} {w : List Char} :
    (first = '#' → σ.cursor.atLineStart = false) →
    macroKind? (String.ofList ((first :: (w ++ t)).takeWhile isNameChar)) = none →
    (step settings σ.cursor σ.body first (w ++ t)).width ≤ w.length + 1 →
    StepMeets settings t σ (first :: w)
  | directive {w : List Char} :
    σ.cursor.atLineStart = true → DirectiveMeets t w → StepMeets settings t σ ('#' :: w)
  | invocation {word : String} {gap : List Char} :
    (macroKind? word).isSome = true → (∀ d, gap.head? = some d → isNameChar d = false) →
    Lexeme.GapMeets t gap → StepMeets settings t σ (word.toList ++ gap)

/-- In the states that the scan reaches from this one before the text `t`, its steps meet it. -/
def Meets (settings : ScanSettings) (t : List Char) (ρ : State) : Prop :=
  ∀ σ w, State.Reaches settings ρ σ → w ≠ [] → σ.cursor.after = w ++ t → StepMeets settings t σ w

/-- Between the text `front` and the mark of a directive in the text `back`, only what may stand
before the mark is on the line. -/
def LeadsMark (front back : List Char) : Prop :=
  (front.reverse.takeWhile (· != '\n')).all isIndent = true ∧ MarkAhead back

/-- The steps take the same and find the same, and end within the first `n` characters or
behind `n + k` of them. -/
structure SameMove (n k : Nat) (next next' : Step) : Prop where
  width_eq : next'.width = next.width
  body_eq : next'.body = next.body
  outline_eq : next'.found.map Finding.outline = next.found.map Finding.outline
  ends : next.width ≤ n ∨ n + k ≤ next.width

/-! ## Invocations -/

theorem location_of_before (hbefore : c'.before = c.before) :
    location settings c' = location settings c := by
  simp only [location, Cursor.line, Cursor.col, Cursor.lineBefore, hbefore]

theorem outline_refuse (hbefore : c'.before = c.before) (name : String) (e e' : ArgumentError) :
    (invocation.refuse settings c' name e').1.map Finding.outline =
      (invocation.refuse settings c name e).1.map Finding.outline := by
  rw [invocation.refuse, invocation.refuse, location_of_before hbefore]
  rfl

/-- Invocations with the same names and the same results of their arguments. -/
theorem invocation_of_toOption (settings : ScanSettings) {kind : RecordKind} {name : String}
    {args args' : List Char} {ps ps' : List Piece} {width : Nat} (hbefore : c'.before = c.before)
    (hps : Argument.extract args = .ok (ps, width))
    (hps' : Argument.extract args' = .ok (ps', width))
    (hmentions : Argument.mentions body.params [] ps' = Argument.mentions body.params [] ps)
    (hread : (readArguments settings kind ps').toOption =
      (readArguments settings kind ps).toOption) :
    (invocation settings c' body kind name args').2 =
        (invocation settings c body kind name args).2 ∧
      (invocation settings c' body kind name args').1.map Finding.outline =
        (invocation settings c body kind name args).1.map Finding.outline ∧
      ((invocation settings c body kind name args).2 = 0 ∨
        (invocation settings c body kind name args).2 = width) := by
  have hoffset : c'.offset = c.offset := congrArg List.length hbefore
  rw [invocation, invocation, hps, hps']
  dsimp only
  rw [hoffset, hmentions]
  split
  · exact ⟨rfl, rfl, .inr rfl⟩
  · cases hx : readArguments settings kind ps with
    | error e =>
      rw [hx] at hread
      cases hy : readArguments settings kind ps' with
      | error e' => exact ⟨rfl, outline_refuse hbefore name e e', .inl rfl⟩
      | ok read =>
        rw [hy] at hread
        cases hread
    | ok read =>
      rw [hx] at hread
      rw [eq_ok_of_toOption hread, location_of_before hbefore]
      exact ⟨rfl, rfl, .inr rfl⟩

theorem toOption_readArguments (settings : ScanSettings) {ps ps' : List Piece}
    (h : Stretched Piece.isBlank ps ps') (kind : RecordKind) :
    (readArguments settings kind ps').toOption = (readArguments settings kind ps).toOption :=
  toOption_bind (Argument.readAll_stretched h true) fun _ => rfl

/-- Invocations of the same macro in the same place, whose arguments are read alike. -/
theorem invocation_of_sameReading (settings : ScanSettings) (body : DefineBody) (kind : RecordKind)
    (name : String) {args args' : List Char} {n k : Nat} (hbefore : c'.before = c.before)
    (h : Argument.SameReading n (k + 1) (Argument.extract args) (Argument.extract args')) :
    (invocation settings c' body kind name args').2 =
        (invocation settings c body kind name args).2 ∧
      (invocation settings c' body kind name args').1.map Finding.outline =
        (invocation settings c body kind name args).1.map Finding.outline ∧
      ((invocation settings c body kind name args).2 ≤ n ∨
        n + (k + 1) ≤ (invocation settings c body kind name args).2) := by
  generalize hx : Argument.extract args = x at h
  generalize hy : Argument.extract args' = y at h
  cases h with
  | error e =>
    rw [invocation, invocation, hx, hy]
    exact ⟨rfl, outline_refuse hbefore name e e, .inl (Nat.zero_le n)⟩
  | @before ps width hle =>
    obtain ⟨htaken, houtline, hends⟩ :=
      invocation_of_toOption settings hbefore hx hy rfl rfl
    exact ⟨htaken, houtline, .inl (by omega)⟩
  | @behind front back width hle =>
    have hmentions := Stretched.eq_of_replicate
      (fun _ _ h => Argument.mentions_stretched h body.params []) (a := .char ' ') rfl front back k
    have hread := Stretched.eq_of_replicate
      (fun _ _ h => toOption_readArguments settings h kind) (a := .char ' ') rfl front back k
    obtain ⟨htaken, houtline, hends⟩ :=
      invocation_of_toOption settings hbefore hx hy hmentions hread
    exact ⟨htaken, houtline, by omega⟩

/-! ## Directives -/

theorem directive_of_not_defines {blanks name gap defined rest : List Char} {d : Char}
    (hparts : DirectiveParts s blanks name gap defined rest) (hdefines : defines name = false)
    (hne : name ++ (gap ++ (defined ++ rest)) ≠ []) (hd : isNameChar d = false) (c : Cursor)
    (body : DefineBody) (t : List Char) :
    (directive c body (s ++ d :: t)).width = 1 + blanks.length + name.length ∧
      (directive c body (s ++ d :: t)).body = body := by
  have hblanks := hparts.blanks_eq
  have hname := hparts.name_eq
  obtain ⟨blanks', name', gap', defined', rest', hparts'⟩ := exists_directiveParts (s ++ d :: t)
  have hblanks' := hparts'.blanks_eq
  have hname' := hparts'.name_eq
  obtain ⟨hwidth, hbody⟩ := hparts'.directive_eq c body
  obtain rfl := hparts.eq
  rw [List.drop_left] at hname
  rw [List.append_assoc, DirectiveParts.takeWhile_append_append hblanks fun hnil =>
    absurd hnil hne] at hblanks'
  subst hblanks'
  rw [List.append_assoc, List.drop_left, List.append_assoc,
    DirectiveParts.takeWhile_append_append hname fun _ e he => by
      rw [← Option.some.inj he, hd]] at hname'
  subst hname'
  simp only [hdefines, Bool.false_eq_true, if_false, false_and] at hwidth hbody
  exact ⟨hwidth, hbody⟩

/-- A directive that meets the comment is the same with spaces in its place. -/
theorem DirectiveMeets.sameMove {content : List Char} (hcontent : OneLine content)
    (h : DirectiveMeets (commented content ++ v) w) (hbefore : c'.before = c.before) :
    SameMove (w.length + 1) (content.length + 4)
      (directive c body (w ++ (commented content ++ v)))
      (directive c' body (w ++ (blanked content ++ v))) := by
  have hoffset : c'.offset = c.offset := congrArg List.length hbefore
  have houtline : (directive c' body (w ++ (blanked content ++ v))).found.map Finding.outline =
      (directive c body (w ++ (commented content ++ v))).found.map Finding.outline := by
    rw [found_directive, found_directive]
  cases h with
  | @other blanks name gap defined rest hparts hdefines hne =>
    obtain ⟨hwidth, hbody⟩ := directive_of_not_defines (d := '/') hparts hdefines hne (by decide)
      c body ('*' :: (content ++ ['*', '/'] ++ v))
    obtain ⟨hwidth', hbody'⟩ := directive_of_not_defines (d := ' ') hparts hdefines hne (by decide)
      c' body (List.replicate (content.length + 3) ' ' ++ v)
    have hlength := congrArg List.length hparts.eq
    simp only [List.length_append] at hlength
    refine ⟨hwidth'.trans hwidth.symm, hbody'.trans hbody.symm, houtline, .inl ?_⟩
    show (directive c body (w ++ '/' :: '*' :: (content ++ ['*', '/'] ++ v))).width ≤ _
    omega
  | @line blanks name gap defined rest hparts hdefines hne hlist hline =>
    have hparts₁ := hparts.append hne (commented content ++ v) fun _ d hd => by
      rw [← Option.some.inj hd]
      rfl
    have hparts₂ := hparts.append hne (blanked content ++ v) fun _ d hd => by
      rw [← Option.some.inj hd]
      rfl
    obtain ⟨hwidth, hbody⟩ := hparts₁.directive_eq c body
    obtain ⟨hwidth', hbody'⟩ := hparts₂.directive_eq c' body
    obtain ⟨hsame, hends⟩ := hline.logicalLine_eq hcontent
    rw [hsame, hoffset] at hbody'
    rw [hsame] at hwidth'
    rw [if_pos hdefines] at hwidth hwidth'
    have hlength := congrArg List.length hparts.eq
    simp only [List.length_append] at hlength
    generalize Lexeme.logicalLine (rest ++ (commented content ++ v)) = line at *
    cases hreserved : isReserved defined with
    | true =>
      rw [if_pos hreserved] at hwidth hwidth'
      rw [if_neg (by simp [hreserved])] at hbody hbody'
      exact ⟨hwidth'.trans hwidth.symm, hbody'.trans hbody.symm, houtline, by omega⟩
    | false =>
      have hne : line ≠ rest.length := by omega
      have htake : parameterList ((rest ++ (commented content ++ v)).take line) =
          parameterList (rest.take line) :=
        parameterList_take hne (hlist hreserved) (by decide) _
      have htake' : parameterList ((rest ++ (blanked content ++ v)).take line) =
          parameterList (rest.take line) :=
        parameterList_take hne (hlist hreserved) (d := ' ') (by decide) _
      have hshort := parameterList_le (rest.take line)
      rw [List.length_take] at hshort
      rw [htake] at hwidth hbody
      rw [htake'] at hwidth' hbody'
      rw [if_neg (by simp [hreserved])] at hwidth hwidth'
      rw [if_pos ⟨hdefines, hreserved⟩] at hbody hbody'
      exact ⟨hwidth'.trans hwidth.symm, hbody'.trans hbody.symm, houtline, .inl (by omega)⟩

/-! ## Names -/

/-- The step at the name of a string macro in a text with this behind the name. -/
theorem namedStep_of_macroKind? {kind : RecordKind} {more : List Char}
    (hkind : macroKind? (String.ofList (first :: more)) = some kind) (settings : ScanSettings)
    (c : Cursor) (body : DefineBody) (rest : List Char) :
    (∀ args, rest.drop (Lexeme.trivia rest) = '(' :: args →
      namedStep settings c body first more rest =
        (1 + more.length + Lexeme.trivia rest + 1 +
            (invocation settings c body kind (String.ofList (first :: more)) args).2,
          (invocation settings c body kind (String.ofList (first :: more)) args).1)) ∧
      ((∀ args, rest.drop (Lexeme.trivia rest) ≠ '(' :: args) →
        namedStep settings c body first more rest = (1 + more.length, none)) := by
  obtain ⟨-, -, hraw⟩ := name_of_macroKind? hkind
  simp only [namedStep, hraw, Bool.and_false, Bool.false_eq_true, if_false, hkind]
  generalize rest.drop (Lexeme.trivia rest) = behind
  constructor
  · rintro args rfl
    rfl
  · intro hother
    split
    · next args => exact absurd rfl (hother args)
    · rfl

/-- A step at a name, from what it takes and finds. -/
theorem sameMove_of_namedStep {n k : Nat} {more rest rest' : List Char}
    (hfirst : isNameStart first = true) (hmore : (more ++ rest).takeWhile isNameChar = more)
    (hmore' : (more ++ rest').takeWhile isNameChar = more)
    (hwidth : (namedStep settings c' body first more rest').1 =
      (namedStep settings c body first more rest).1)
    (houtline : (namedStep settings c' body first more rest').2.map Finding.outline =
      (namedStep settings c body first more rest).2.map Finding.outline)
    (hends : (namedStep settings c body first more rest).1 ≤ n ∨
      n + k ≤ (namedStep settings c body first more rest).1) :
    SameMove n k (step settings c body first (more ++ rest))
      (step settings c' body first (more ++ rest')) := by
  obtain ⟨hwidth₁, hbody₁, hfound₁⟩ := name_eq hmore settings c body first
  obtain ⟨hwidth₂, hbody₂, hfound₂⟩ := name_eq hmore' settings c' body first
  rw [step_of_isNameStart hfirst, step_of_isNameStart hfirst]
  refine ⟨?_, hbody₂.trans hbody₁.symm, ?_, ?_⟩
  · rw [hwidth₁, hwidth₂, hwidth]
  · rw [hfound₁, hfound₂, houtline]
  · rwa [hwidth₁]

theorem drop_append_append {u t v : List Char} {n : Nat} (hn : u.length + t.length ≤ n) :
    (u ++ (t ++ v)).drop n = v.drop (n - (u.length + t.length)) := by
  rw [← List.append_assoc, List.drop_append, List.length_append,
    List.drop_of_length_le (by simpa using hn), List.nil_append]

theorem exists_sameReading (k : Nat) (x : Except ArgumentError (List Piece × Nat)) :
    ∃ n, Argument.SameReading n k x x := by
  cases x with
  | error e => exact ⟨0, .error e⟩
  | ok read => exact ⟨read.2, .before (Nat.le_refl _)⟩

/-- Behind the gap both texts have arguments that are read alike, or none. -/
theorem behind_of_gapMeets {content gap : List Char} (hcontent : OneLine content)
    (h : Lexeme.GapMeets (commented content ++ v) gap) {g : Nat}
    (hg : Lexeme.trivia (gap ++ (commented content ++ v)) = g) :
    (∃ args args' n, (gap ++ (commented content ++ v)).drop g = '(' :: args ∧
        (gap ++ (blanked content ++ v)).drop g = '(' :: args' ∧
        Argument.SameReading n (content.length + 4) (Argument.extract args)
          (Argument.extract args') ∧
        (gap.length + (content.length + 4) ≤ g ∨ g + 1 + n = gap.length)) ∨
      (∀ args, (gap ++ (commented content ++ v)).drop g ≠ '(' :: args) ∧
        ∀ args, (gap ++ (blanked content ++ v)).drop g ≠ '(' :: args := by
  obtain ⟨-, hends⟩ := h.trivia_eq hcontent
  rw [hg] at hends
  rcases hends with hthrough | ⟨d, rest, hdrop, hargs⟩
  · have hsame : (gap ++ (blanked content ++ v)).drop g =
        (gap ++ (commented content ++ v)).drop g := by
      rw [drop_append_append (by simpa using hthrough),
        drop_append_append (by simpa using hthrough), length_commented, length_blanked]
    by_cases hopening : ∃ args, (gap ++ (commented content ++ v)).drop g = '(' :: args
    · obtain ⟨args, hopening⟩ := hopening
      obtain ⟨n, hread⟩ := exists_sameReading (content.length + 4) (Argument.extract args)
      exact .inl ⟨args, args, n, hopening, hsame.trans hopening, hread, .inl hthrough⟩
    · rw [not_exists] at hopening
      exact .inr ⟨hopening, hsame ▸ hopening⟩
  · have hlength := congrArg List.length hdrop
    rw [List.length_drop, List.length_cons] at hlength
    rw [List.drop_append_of_le_length (by omega), List.drop_append_of_le_length (by omega), hdrop]
    by_cases hopening : d = '('
    · have hread := (hargs hopening).collect_eq hcontent [] 0
      exact .inl ⟨_, _, _, by rw [hopening]; rfl, by rw [hopening]; rfl, hread, .inr (by omega)⟩
    · exact .inr ⟨fun _ hcons => hopening (List.cons.inj hcons).1,
        fun _ hcons => hopening (List.cons.inj hcons).1⟩

/-- The name of a string macro with what follows it. -/
theorem sameMove_of_gapMeets {content more gap : List Char} (hcontent : OneLine content)
    (hfirst : isNameStart first = true) (hmore : ∀ d ∈ more, isNameChar d = true)
    (hkind : (macroKind? (String.ofList (first :: more))).isSome = true)
    (hgap : ∀ d, gap.head? = some d → isNameChar d = false)
    (hmeets : Lexeme.GapMeets (commented content ++ v) gap) (hbefore : c'.before = c.before) :
    SameMove (more.length + gap.length + 1) (content.length + 4)
      (step settings c body first (more ++ (gap ++ (commented content ++ v))))
      (step settings c' body first (more ++ (gap ++ (blanked content ++ v)))) := by
  obtain ⟨kind, hkind⟩ := Option.isSome_iff_exists.1 hkind
  have htake {d : Char} (hd : isNameChar d = false) (t : List Char) :
      (more ++ (gap ++ d :: t)).takeWhile isNameChar = more := by
    rw [List.takeWhile_append_of_pos hmore]
    cases gap with
    | nil => rw [List.nil_append, List.takeWhile_cons_of_neg (by simp [hd]), List.append_nil]
    | cons e gap =>
      rw [List.cons_append, List.takeWhile_cons_of_neg (by simp [hgap e rfl]), List.append_nil]
  obtain ⟨htrivia, -⟩ := hmeets.trivia_eq hcontent
  obtain ⟨hopens, hother⟩ :=
    namedStep_of_macroKind? hkind settings c body (gap ++ (commented content ++ v))
  obtain ⟨hopens', hother'⟩ :=
    namedStep_of_macroKind? hkind settings c' body (gap ++ (blanked content ++ v))
  rw [htrivia] at hopens' hother'
  have hbehind := behind_of_gapMeets hcontent hmeets rfl
  generalize Lexeme.trivia (gap ++ (commented content ++ v)) = g at *
  have hcommented : (more ++ (gap ++ (commented content ++ v))).takeWhile isNameChar = more :=
    htake (d := '/') rfl _
  have hblanked : (more ++ (gap ++ (blanked content ++ v))).takeWhile isNameChar = more :=
    htake (d := ' ') rfl _
  rcases hbehind with ⟨args, args', n, hargs, hargs', hread, hplace⟩ | ⟨hnone, hnone'⟩
  · obtain ⟨htaken, houtline, hends⟩ := invocation_of_sameReading settings body kind
      (String.ofList (first :: more)) hbefore hread
    refine sameMove_of_namedStep hfirst hcommented hblanked ?_ ?_ ?_
    · rw [hopens args hargs, hopens' args' hargs', htaken]
    · rw [hopens args hargs, hopens' args' hargs', houtline]
    · rw [hopens args hargs]
      dsimp only
      omega
  · refine sameMove_of_namedStep hfirst hcommented hblanked ?_ ?_ ?_
    · rw [hother hnone, hother' hnone']
    · rw [hother hnone, hother' hnone']
    · rw [hother hnone]
      exact .inl (by dsimp only; omega)

/-! ## Other tokens -/

theorem namedStep_of_none {more : List Char}
    (hkind : macroKind? (String.ofList (first :: more)) = none) (settings : ScanSettings)
    (c : Cursor) (body : DefineBody) (rest : List Char) :
    namedStep settings c body first more rest =
      if rest.head? == some '"' && Lexeme.rawMarks.contains (String.ofList (first :: more)) then
        (1 + more.length + 1 + Lexeme.rawString rest.tail, none)
      else (1 + more.length, none) := by
  simp only [namedStep, hkind]

/-- A name or a raw string that ends before the comment. -/
theorem namedStep_blanked {content more rest : List Char} (c' : Cursor)
    (hkind : macroKind? (String.ofList (first :: more)) = none)
    (hends : (namedStep settings c body first more (rest ++ (commented content ++ v))).1 ≤
      more.length + rest.length + 1) :
    namedStep settings c' body first more (rest ++ (blanked content ++ v)) =
      namedStep settings c body first more (rest ++ (commented content ++ v)) := by
  rw [namedStep_of_none hkind] at hends ⊢
  rw [namedStep_of_none hkind]
  cases rest with
  | nil => rfl
  | cons d rest =>
    rw [List.cons_append, List.head?_cons, List.tail_cons, List.length_cons] at hends
    rw [List.cons_append, List.cons_append, List.head?_cons, List.head?_cons, List.tail_cons,
      List.tail_cons]
    by_cases hraw : (some d == some '"' &&
      Lexeme.rawMarks.contains (String.ofList (first :: more))) = true
    · rw [if_pos hraw] at hends
      rw [if_pos hraw, if_pos hraw, Lexeme.rawString_blanked (by dsimp only at hends; omega)]
    · rw [if_neg hraw, if_neg hraw]

/-- A token that ends before the comment. -/
theorem sameMove_of_token {content : List Char} (hcontent : OneLine content)
    (hmark : first = '#' → c.atLineStart = false)
    (hkind : macroKind? (String.ofList
      ((first :: (w ++ (commented content ++ v))).takeWhile isNameChar)) = none)
    (hends : (step settings c body first (w ++ (commented content ++ v))).width ≤ w.length + 1)
    (hbefore : c'.before = c.before) :
    SameMove (w.length + 1) (content.length + 4)
      (step settings c body first (w ++ (commented content ++ v)))
      (step settings c' body first (w ++ (blanked content ++ v))) := by
  have hseparator : isDigitSeparator c' = isDigitSeparator c := by
    rw [isDigitSeparator, isDigitSeparator, hbefore]
  have hstart : c'.atLineStart = c.atLineStart := by
    rw [Cursor.atLineStart, Cursor.atLineStart, Cursor.lineBefore, Cursor.lineBefore, hbefore]
  have hhash : ¬(decide (first = '#') && c.atLineStart) = true := by
    simpa using hmark
  have htake {d : Char} (hd : isNameChar d = false) (t : List Char) :
      (w ++ d :: t).takeWhile isNameChar = w.takeWhile isNameChar :=
    takeWhile_append_of_neg hd w t
  have hcommented : (w ++ (commented content ++ v)).takeWhile isNameChar = w.takeWhile isNameChar :=
    htake (d := '/') rfl _
  have hblanked : (w ++ (blanked content ++ v)).takeWhile isNameChar = w.takeWhile isNameChar :=
    htake (d := ' ') rfl _
  by_cases hstarts : isNameStart first = true
  · obtain ⟨more, rest, rfl, hmore, -⟩ := exists_takeWhile isNameChar w
    rw [List.takeWhile_cons_of_pos (isNameChar_of_isNameStart hstarts), hcommented, hmore] at hkind
    rw [hmore, List.append_assoc] at hcommented hblanked
    rw [List.append_assoc, step_of_isNameStart hstarts,
      (name_eq hcommented settings c body first).1, List.length_append] at hends
    have hsame := namedStep_blanked c' hkind hends
    rw [List.append_assoc, List.append_assoc]
    rw [← List.length_append] at hends
    exact sameMove_of_namedStep hstarts hcommented hblanked (by rw [hsame]) (by rw [hsame])
      (.inl hends)
  · rw [step, if_neg hhash, if_neg hstarts] at hends
    rw [step, step, hseparator, hstart, if_neg hhash, if_neg hhash, if_neg hstarts, if_neg hstarts]
    split
    · exact ⟨rfl, rfl, rfl, .inl (Nat.le_add_left 1 _)⟩
    next hquote =>
    rw [if_neg hquote] at hends
    split
    · next hdigit =>
      rw [if_pos hdigit] at hends
      have hwidth : 1 + ((w ++ (blanked content ++ v)).takeWhile isNameChar).length =
          1 + ((w ++ (commented content ++ v)).takeWhile isNameChar).length := by
        rw [hcommented, hblanked]
      exact ⟨hwidth, rfl, rfl, .inl hends⟩
    · next hdigit =>
      rw [if_neg hdigit] at hends
      exact ⟨Lexeme.width_blanked hcontent hends, rfl, rfl, .inl hends⟩

/-- A step that meets the comment is the same with spaces in its place. -/
theorem StepMeets.sameMove {content : List Char} {σ : State} (hcontent : OneLine content)
    (h : StepMeets settings (commented content ++ v) σ (first :: w)) (c' : Cursor)
    (hbefore : c'.before = σ.cursor.before) :
    SameMove (w.length + 1) (content.length + 4)
      (step settings σ.cursor σ.body first (w ++ (commented content ++ v)))
      (step settings c' σ.body first (w ++ (blanked content ++ v))) := by
  generalize hw : first :: w = u at h
  cases h with
  | token hmark hkind hends =>
    obtain ⟨rfl, rfl⟩ := List.cons.inj hw
    exact sameMove_of_token hcontent hmark hkind hends hbefore
  | directive hstart hmeets =>
    obtain ⟨rfl, rfl⟩ := List.cons.inj hw
    have hstart' : c'.atLineStart = true := by
      rw [← hstart, Cursor.atLineStart, Cursor.atLineStart, Cursor.lineBefore, Cursor.lineBefore,
        hbefore]
    rw [step_of_hash hstart, step_of_hash hstart']
    exact hmeets.sameMove hcontent hbefore
  | @invocation word gap hkind hgap hmeets =>
    obtain ⟨kind, hword⟩ := Option.isSome_iff_exists.1 hkind
    obtain ⟨⟨_, more, hname, hfirst⟩, hchars, -⟩ := name_of_macroKind? hword
    rw [hname, List.cons_append] at hw
    obtain ⟨rfl, rfl⟩ := List.cons.inj hw
    rw [hname, List.all_cons, Bool.and_eq_true] at hchars
    have hofList : String.ofList (first :: more) = word := by rw [← hname, String.ofList_toList]
    rw [← hofList] at hkind
    rw [List.append_assoc, List.append_assoc, List.length_append]
    exact sameMove_of_gapMeets hcontent hfirst (List.all_eq_true.1 hchars.2) hkind hgap hmeets
      hbefore

/-! ## Behind the comment -/

/-- Behind the comment and behind the spaces the cursors look alike, unless only they stand
between the start of the line and the mark of a directive. -/
theorem alike_behind {content u : List Char} (hcontent : OneLine content)
    (hmark : ¬LeadsMark u v) :
    Cursor.Alike 0 ⟨(commented content).reverse ++ u.reverse, v⟩
      ⟨(blanked content).reverse ++ u.reverse, v⟩ := by
  have hnewline : '\n' ∉ (commented content).reverse := by simp [commented, hcontent.oneLine]
  have hnewline' : '\n' ∉ (blanked content).reverse := by simp [blanked]
  have hline := bne_of_notMem hnewline
  have hline' := bne_of_notMem hnewline'
  refine ⟨rfl, ?_, ?_, fun hahead => ?_, ?_⟩
  · show ((blanked content).reverse ++ u.reverse).count '\n' + 1 =
      ((commented content).reverse ++ u.reverse).count '\n' + 1
    rw [List.count_append, List.count_append, List.count_eq_zero.2 hnewline,
      List.count_eq_zero.2 hnewline']
  · show (((blanked content).reverse ++ u.reverse).takeWhile (· != '\n')).length + 1 =
      (((commented content).reverse ++ u.reverse).takeWhile (· != '\n')).length + 1
    rw [List.takeWhile_append_of_pos hline, List.takeWhile_append_of_pos hline']
    simp
  · show (((blanked content).reverse ++ u.reverse).takeWhile (· != '\n')).all isIndent =
      (((commented content).reverse ++ u.reverse).takeWhile (· != '\n')).all isIndent
    have hfront : (u.reverse.takeWhile (· != '\n')).all isIndent = false :=
      eq_false_of_ne_true fun hfront => hmark ⟨hfront, hahead⟩
    rw [List.takeWhile_append_of_pos hline, List.takeWhile_append_of_pos hline', List.all_append,
      List.all_append, hfront, Bool.and_false, Bool.and_false]
  · show ((blanked content).reverse ++ u.reverse).takeWhile isNameChar =
      ((commented content).reverse ++ u.reverse).takeWhile isNameChar
    rw [commented, blanked, List.reverse_replicate]
    simp [List.replicate_succ, isNameChar]

theorem run_spaces {before : List Char} {found : List Finding} (n : Nat) :
    run settings ⟨before, List.replicate n ' ' ++ v⟩ body found =
      run settings ⟨List.replicate n ' ' ++ before, v⟩ body found := by
  induction n generalizing before with
  | zero => rfl
  | succ n ih =>
    obtain ⟨hwidth, hbody, hfound⟩ := @step_of_notMem settings
      ⟨before, ' ' :: (List.replicate n ' ' ++ v)⟩ body ' ' (List.replicate n ' ' ++ v)
      (by decide) rfl
    rw [List.replicate_succ, List.cons_append, run_of_after_cons rfl, hwidth, hbody, hfound,
      Lexeme.width_of_notMem (by decide)]
    show run settings ⟨' ' :: before, List.replicate n ' ' ++ v⟩ body found = _
    rw [ih, List.append_cons, ← List.replicate_succ', List.replicate_succ]

theorem run_commented {before content : List Char} {found : List Finding}
    (hcontent : OneLine content) :
    run settings ⟨before, commented content ++ v⟩ body found =
      run settings ⟨(commented content).reverse ++ before, v⟩ body found := by
  have hafter : Cursor.after ⟨before, commented content ++ v⟩ =
      '/' :: '*' :: (content ++ ['*', '/'] ++ v) := rfl
  have hwidth : Lexeme.width (commented content ++ v) = (commented content).length := by
    rw [Lexeme.width, Lexeme.comment?_commented hcontent.closes, length_commented]
    rfl
  obtain ⟨hstep, hbody, hfound⟩ := @step_of_notMem settings ⟨before, commented content ++ v⟩ body
    '/' ('*' :: (content ++ ['*', '/'] ++ v)) (by decide) rfl
  rw [run_of_after_cons hafter, hstep, hbody, hfound]
  show run settings (Cursor.advance _ (Lexeme.width (commented content ++ v))) body found = _
  rw [hwidth, Cursor.advance_append]

/-- From cursors that look alike, the scans find the same up to the text of the line. -/
theorem run_outline {found found' : List Finding} (h : Cursor.Alike 0 c c')
    (hoffset : c'.offset = c.offset) (hfound : SameOutlines found found') :
    SameOutlines (run settings c body found) (run settings c' body found') := by
  have hbody : DefineBody.Agrees c.offset body c'.offset body := by
    rw [hoffset]
    exact ⟨fun _ => Iff.rfl, fun _ => rfl⟩
  exact run_alike (P := fun _ _ => True) (R := fun x y => y.outline = x.outline)
    (fun _ _ _ _ h => h) (fun _ c' _ _ _ x _ _ _ => outline_moved x _) found' c' body hfound h
    trivial hbody

theorem SameMove.found_append {n k : Nat} {next next' : Step} (h : SameMove n k next next')
    {found found' : List Finding} (hfound : SameOutlines found found') :
    SameOutlines (next.found.toList ++ found) (next'.found.toList ++ found') := by
  have houtline := h.outline_eq
  cases hx : next.found with
  | none =>
    rw [hx, Option.map_none, Option.map_eq_none_iff] at houtline
    rw [houtline]
    exact hfound
  | some x =>
    rw [hx, Option.map_some] at houtline
    obtain ⟨y, hy, hxy⟩ := Option.map_eq_some_iff.1 houtline
    rw [hy]
    exact .cons hxy hfound

/-- A step that leads through the comment leads through the spaces to a cursor that looks
alike. -/
theorem run_through {before content u : List Char} {found found' : List Finding} {n : Nat}
    (hcontent : OneLine content) (hmark : ¬LeadsMark (before.reverse ++ u) v)
    (hn : u.length + (content.length + 4) ≤ n) (hfound : SameOutlines found found') :
    SameOutlines
      (run settings ((⟨before, u ++ (commented content ++ v)⟩ : Cursor).advance n) body found)
      (run settings ((⟨before, u ++ (blanked content ++ v)⟩ : Cursor).advance n) body found') := by
  obtain ⟨m, rfl⟩ := Nat.exists_eq_add_of_le hn
  have hthrough {t : List Char} (ht : t.length = content.length + 4) :
      (⟨before, u ++ (t ++ v)⟩ : Cursor).advance (u.length + (content.length + 4) + m) =
        (⟨t.reverse ++ (before.reverse ++ u).reverse, v⟩ : Cursor).advance m := by
    rw [← ht, ← List.length_append, ← List.append_assoc, Cursor.advance_add,
      Cursor.advance_append, List.reverse_append, List.reverse_append, List.reverse_reverse,
      List.append_assoc]
  rw [hthrough (length_commented content), hthrough (length_blanked content)]
  exact run_outline ((alike_behind hcontent hmark).advance m)
    (by simp [Cursor.offset, Cursor.advance]) hfound

/-! ## The scan -/

/-- The scan that meets the comment on its way finds the same with spaces in its place. -/
theorem run_blanked {content : List Char} {ρ σ : State} {found' : List Finding}
    (hcontent : OneLine content) (hmeets : Meets settings (commented content ++ v) ρ)
    (hσ : State.Reaches settings ρ σ) (hafter : σ.cursor.after = w ++ (commented content ++ v))
    (hmark : ¬LeadsMark (σ.cursor.before.reverse ++ w) v) (hfound : SameOutlines σ.found found') :
    SameOutlines (σ.outcome settings)
      (run settings ⟨σ.cursor.before, w ++ (blanked content ++ v)⟩ σ.body found') := by
  -- Each step makes the text before the comment shorter.
  induction hlength : w.length using Nat.strong_induction_on generalizing w σ found' with
  | h n ih =>
  obtain ⟨⟨before, after⟩, body, found⟩ := σ
  obtain rfl : after = w ++ (commented content ++ v) := hafter
  cases w with
  | nil =>
    show SameOutlines (run settings ⟨before, commented content ++ v⟩ body found)
      (run settings ⟨before, blanked content ++ v⟩ body found')
    have hseam := alike_behind hcontent hmark
    rw [List.append_nil, List.reverse_reverse, blanked, List.reverse_replicate] at hseam
    rw [run_commented hcontent, blanked, run_spaces]
    exact run_outline hseam (by simp [Cursor.offset]) hfound
  | cons first w =>
    have hmove := (hmeets _ (first :: w) hσ (by simp) rfl).sameMove hcontent
      ⟨before, first :: w ++ (blanked content ++ v)⟩ rfl
    have hfound' := hmove.found_append hfound
    have hnext := @State.next?_of_after settings
      ⟨⟨before, first :: w ++ (commented content ++ v)⟩, body, found⟩ first
      (w ++ (commented content ++ v)) rfl
    have hafter' : Cursor.after ⟨before, first :: w ++ (blanked content ++ v)⟩ =
      first :: (w ++ (blanked content ++ v)) := rfl
    dsimp only at hmove hnext hfound' ⊢
    rw [State.outcome_of_next? hnext, run_of_after_cons hafter', hmove.width_eq, hmove.body_eq]
    have hpos := (step settings ⟨before, first :: w ++ (commented content ++ v)⟩ body first
      (w ++ (commented content ++ v))).width_pos
    have hends := hmove.ends
    have hτ := hσ.tail hnext
    generalize step settings ⟨before, first :: w ++ (commented content ++ v)⟩ body first
      (w ++ (commented content ++ v)) = next at *
    generalize step settings ⟨before, first :: w ++ (blanked content ++ v)⟩ body first
      (w ++ (blanked content ++ v)) = next' at *
    rcases hends with hle | hle
    · rw [Cursor.advance_of_le (s := first :: w) hle] at hτ ⊢
      rw [Cursor.advance_of_le (s := first :: w) hle]
      refine ih ((first :: w).drop next.width).length ?_ hτ rfl ?_ hfound' rfl
      · rw [List.length_drop, ← hlength, List.length_cons]
        omega
      · show ¬LeadsMark ((((first :: w).take next.width).reverse ++ before).reverse ++ _) v
        rwa [List.reverse_append, List.reverse_reverse, List.append_assoc, List.take_append_drop]
    · exact run_through (u := first :: w) hcontent hmark hle hfound'

end Scan

theorem recordsOf_eq_outline (found : List Finding) :
    recordsOf found = (found.map Finding.outline).filterMap Sum.getLeft? := by
  rw [recordsOf, List.filterMap_map]
  congr 1
  funext x
  cases x <;> rfl

theorem errorsOf_eq_outline (found : List Finding) :
    (errorsOf found).map (fun e => (e.location, e.macroName)) =
      (found.map Finding.outline).filterMap Sum.getRight? := by
  rw [errorsOf, List.filterMap_map, List.map_filterMap]
  congr 1
  funext x
  cases x <;> rfl

open Scan

/-- A block comment in one line that the scan takes as one wherever it comes to it, and that
does not stand alone before the mark of a directive, gives what as many spaces do. -/
theorem scan_blanked {settings : ScanSettings} {front content back : List Char}
    (hcontent : OneLine content)
    (hmeets : Meets settings (commented content ++ back)
      (initial (String.ofList (front ++ (commented content ++ back)))))
    (hmark : ¬LeadsMark (withoutMark (String.ofList front)) back) :
    let found := scan settings (String.ofList (front ++ (commented content ++ back)))
    let found' := scan settings (String.ofList (front ++ (blanked content ++ back)))
    recordsOf found' = recordsOf found ∧
      (errorsOf found').map (fun e => (e.location, e.macroName)) =
        (errorsOf found).map fun e => (e.location, e.macroName) := by
  have hafter : withoutMark (String.ofList (front ++ (commented content ++ back))) =
      withoutMark (String.ofList front) ++ (commented content ++ back) :=
    withoutMark_append front '/' (by decide) _
  have hafter' : withoutMark (String.ofList (front ++ (blanked content ++ back))) =
      withoutMark (String.ofList front) ++ (blanked content ++ back) :=
    withoutMark_append front ' ' (by decide) _
  intro found found'
  have hfound : SameOutlines found
      (run settings (.start (withoutMark (String.ofList front) ++ (blanked content ++ back))) {}
        []) :=
    run_blanked hcontent hmeets .refl hafter hmark .nil
  rw [← hafter'] at hfound
  have houtline : found'.map Finding.outline = found.map Finding.outline :=
    map_eq_of_forall₂ hfound
  rw [recordsOf_eq_outline, recordsOf_eq_outline, errorsOf_eq_outline, errorsOf_eq_outline,
    houtline]
  exact ⟨rfl, rfl⟩

/-! ### Comments in arguments and in directives -/

theorem scan_blanked_sample :
    let settings : ScanSettings := ⟨"a.cpp", ∅⟩
    let front := "FSPGM(t ".toList
    let content := " c ".toList
    let back := ", \"T\");\n".toList
    OneLine content ∧ ¬LeadsMark (withoutMark (String.ofList front)) back ∧
      (recordsOf (scan settings (String.ofList (front ++ (blanked content ++ back))))).map
        (·.identifier) = ["t"] := by
  intro settings front content back
  have hcontent : OneLine content := ⟨by decide, by decide⟩
  have hmark : ¬LeadsMark (withoutMark (String.ofList front)) back := by
    rintro ⟨-, blanks, rest, heq, -⟩
    have hmem : '#' ∈ back := by
      rw [heq]
      simp
    exact absurd hmem (by decide)
  let text := String.ofList (front ++ (commented content ++ back))
  have hfirst : ((initial text).next? settings).map (·.cursor.after.length) = some 2 := by
    decide +kernel
  obtain ⟨τ, hτ, hlength⟩ := Option.map_eq_some_iff.1 hfirst
  have hmeets : Meets settings (commented content ++ back) (initial text) := by
    intro σ w hσ _ hafter
    obtain rfl | ⟨υ, hυ, hbehind⟩ := hσ.cases_head
    · have hinitial : (initial text).cursor.after = front ++ (commented content ++ back) := by
        decide +kernel
      obtain rfl : front = w := List.append_cancel_right (hinitial.symm.trans hafter)
      have hargs : Argument.Meets (commented content ++ back) 0 ['t', ' '] :=
        .char (by decide) rfl (.char (by decide) rfl .here)
      exact @StepMeets.invocation _ _ _ "FSPGM" ['(', 't', ' '] (by decide) (by simp [isNameChar])
        (.arguments hargs)
    · obtain rfl : τ = υ := Option.some.inj (hτ.symm.trans hυ)
      have hle := State.Reaches.length_after_le hbehind
      rw [hafter, hlength, List.length_append, List.length_append, length_commented] at hle
      omega
  obtain ⟨hrecords, -⟩ := scan_blanked hcontent hmeets hmark
  refine ⟨hcontent, hmark, ?_⟩
  rw [hrecords]
  decide +kernel

/-- A comment before the mark of a directive hides it, and one behind the mark hides the name
of a string macro that is defined.  One in a parameter list hides the parameter. -/
theorem scan_comment_examples :
    let settings : ScanSettings := ⟨"a.cpp", ∅⟩
    let identifiers (text : String) := (recordsOf (scan settings text)).map (·.identifier)
    (identifiers "/* c */ #define FSPGM(id) x\n" = ["id"] ∧
        identifiers "        #define FSPGM(id) x\n" = []) ∧
      (identifiers "#define /* c */ SPGM(x) y\n" = ["x"] ∧
        identifiers "#define         SPGM(x) y\n" = []) ∧
      (identifiers "#define L(a /* c */, b) FSPGM(a)\n" = ["a"] ∧
        identifiers "#define L(a        , b) FSPGM(a)\n" = []) := by
  refine ⟨⟨by decide +kernel, by decide +kernel⟩, ⟨by decide +kernel, by decide +kernel⟩,
    by decide +kernel, by decide +kernel⟩

end FlashStrings
