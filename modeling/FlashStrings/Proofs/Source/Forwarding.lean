import FlashStrings.Proofs.Invocation.Words
import FlashStrings.Proofs.Source.Continuation
import FlashStrings.Proofs.Source.States
import FlashStrings.Proofs.Text.Spaced

/-!
# Macros that forward their parameters

In the body of a function-like macro an invocation that uses a parameter stands for
no string of its own.  The scan passes over it, and takes any other invocation there
as it takes those outside of the body (`Scan.State.forwards`).

The step at the definition keeps the parameters and the end of its line
(`State.next?_of_definesFunction`), and no step up to the next definition forgets them
(`State.ReachesWithin.body_eq`).  So at each invocation in the body the parameters are
looked for in the arguments, as words outside of literals (`Argument.mentions_iff`).

What counts as a parameter is the text between two commas, without blanks at its ends.
For names with blanks around them these are the names
(`params_of_spaced`), but a comment or a continued line beside a name hides it, and
the extra arguments of a variadic macro have no name (`scan_forwarding_examples`).
-/

namespace FlashStrings

namespace Scan

/-! ## Parameters -/

/-- The parameters with commas between them, and the dots of a variadic macro. -/
def parameterTokens (names : List (List Char)) (variadic : Bool) : List (List Char) :=
  [[',']].intercalate ((names ++ if variadic then ["...".toList] else []).map ([·]))

/-- A parameter or the dots. -/
structure IsParameterToken (token : List Char) : Prop where
  ne_nil : token ≠ []
  solid : ∀ c ∈ token, isBlank c = false
  comma_notMem : ',' ∉ token

theorem isParameterToken_of_isCName {name : List Char} (h : isCName (String.ofList name) = true) :
    IsParameterToken name where
  ne_nil := ne_nil_of_isCName h
  solid := fun _ hc => not_isBlank_of_isNameChar ((isCName_ofList.1 h).2 _ hc)
  comma_notMem := fun hc => by cases (isCName_ofList.1 h).2 _ hc

theorem isParameterToken_dots : IsParameterToken "...".toList :=
  ⟨by decide, by simp [isBlank], by decide⟩

/-- Tokens with blanks around them are found again between the commas. -/
theorem trim_cutAt_of_spaced {tokens : List (List Char)} {list : List Char} (hne : tokens ≠ [])
    (htokens : ∀ token ∈ tokens, IsParameterToken token)
    (h : Spaced isBlank ([[',']].intercalate (tokens.map ([·]))) list) :
    (cutAt ',' list).map trim = tokens := by
  obtain ⟨parts, rfl, hparts⟩ := h.exists_intercalate (by simpa using hne)
  rw [List.forall₂_map_left_iff] at hparts
  have hparts := (List.forall₂_and_left _ _).2 ⟨htokens, hparts⟩
  have hcomma : ∀ part ∈ parts, ',' ∉ part := by
    refine forall_of_forall₂ hparts fun token part ⟨htoken, hspaced⟩ hmem => ?_
    obtain ⟨_, hsingle, hcomma⟩ := hspaced.exists_mem hmem rfl
    obtain rfl := List.mem_singleton.1 hsingle
    exact htoken.comma_notMem hcomma
  have htrim : List.Forall₂ (fun token text => token = text) tokens (parts.map trim) :=
    List.forall₂_map_right_iff.2 (hparts.imp fun token part ⟨htoken, hspaced⟩ =>
      (hspaced.trimWhile_singleton htoken.ne_nil htoken.solid).symm)
  have hparts_ne : parts ≠ [] := by
    rintro rfl
    cases hparts
    exact hne rfl
  rw [cutAt_intercalate hparts_ne hcomma]
  exact (List.forall₂_eq_eq_eq ▸ htrim : tokens = parts.map trim).symm

/-- Names with blanks around them are the parameters. -/
theorem params_of_spaced {names : List (List Char)} {variadic : Bool} {list : List Char}
    (hnames : ∀ name ∈ names, isCName (String.ofList name) = true)
    (h : Spaced isBlank (parameterTokens names variadic) list) : params list = names := by
  have hkept : names.filter (fun p => !p.isEmpty && p != "...".toList) = names := by
    refine List.filter_eq_self.2 fun name hname => ?_
    have hstart := (isCName_ofList.1 (hnames name hname)).1
    cases name with
    | nil => cases hstart
    | cons c cs =>
      have hne : c ≠ '.' := by
        rintro rfl
        cases hstart
      simp [hne]
  cases variadic with
  | true =>
    have htokens : ∀ token ∈ names ++ ["...".toList], IsParameterToken token :=
      List.forall_mem_append.2 ⟨fun name hname => isParameterToken_of_isCName (hnames name hname),
        List.forall_mem_singleton.2 isParameterToken_dots⟩
    rw [params, trim_cutAt_of_spaced (by simp) htokens h, List.filter_append, hkept]
    exact List.append_nil names
  | false =>
    cases names with
    | nil =>
      have hblank : ∀ c ∈ list, isBlank c = true := Spaced.eq_true_of_nil h
      have hcomma : ',' ∉ list := fun hmem => by cases hblank _ hmem
      have htrim : trim list = [] := by
        rw [trim, trimWhile, ← List.append_nil list, List.dropWhile_append_of_pos hblank]
        rfl
      rw [params, cutAt_of_notMem hcomma, List.map_singleton, htrim]
      rfl
    | cons name names =>
      have htokens : ∀ token ∈ name :: names ++ [], IsParameterToken token := by
        rw [List.append_nil]
        exact fun name hname => isParameterToken_of_isCName (hnames name hname)
      rw [params, trim_cutAt_of_spaced (by simp) htokens h, List.append_nil, hkept]

/-! ## Definitions -/

theorem isBlank_of_isLineBlank {c : Char} (h : isLineBlank c = true) : isBlank c = true := by
  rw [isLineBlank, Bool.or_eq_true, beq_iff_eq, beq_iff_eq] at h
  rcases h with rfl | rfl <;> rfl

/-- Characters that begin no lexeme of their own belong to the line they stand in. -/
theorem logicalLine_append {s : List Char} (h : ∀ c ∈ s, c ∉ ['\\', '\n', '"', '\'', '/'])
    (t : List Char) : Lexeme.logicalLine (s ++ t) = s.length + Lexeme.logicalLine t := by
  induction s with
  | nil => rw [List.nil_append, List.length_nil, Nat.zero_add]
  | cons c s ih =>
    obtain ⟨hc, hs⟩ := List.forall_mem_cons.1 h
    simp only [List.mem_cons, List.not_mem_nil, or_false, not_or] at hc
    obtain ⟨hback, hnewline, hdouble, hsingle, hslash⟩ := hc
    have hwidth : Lexeme.width (c :: (s ++ t)) = 1 := by
      rw [Lexeme.width, Lexeme.comment?_of_ne hslash, Lexeme.literal?,
        if_neg (by simp [hdouble, hsingle])]
      rfl
    rw [List.cons_append, Lexeme.logicalLine, if_neg hnewline, hwidth, List.drop_one,
      List.tail_cons, ih hs, List.length_cons]
    · omega
    · exact fun u hu => absurd hu hback
    · exact fun u hu => absurd hu hback

/-- The text begins with a definition of a function-like macro that is no string macro,
`#define NAME(list)`.  With the parenthesis that closes the list it takes `head`
characters, and with its body `line` characters. -/
inductive DefinesFunction (list : List Char) : List Char → Nat → Nat → Prop where
  | intro {blanks gap rest : List Char} {name : String} :
    (∀ b ∈ blanks, isLineBlank b = true) → gap ≠ [] → (∀ b ∈ gap, isLineBlank b = true) →
    isCName name = true → macroKind? name = none → name ≠ autoInitBlock → ')' ∉ list →
    gap.length + name.length + list.length + 2 ≤
      Lexeme.logicalLine (gap ++ (name.toList ++ '(' :: (list ++ ')' :: rest))) →
    DefinesFunction list
      ('#' :: (blanks ++ ("define".toList ++
        (gap ++ (name.toList ++ '(' :: (list ++ ')' :: rest))))))
      (7 + blanks.length + (gap.length + name.length + list.length + 2))
      (7 + blanks.length +
        Lexeme.logicalLine (gap ++ (name.toList ++ '(' :: (list ++ ')' :: rest))))

/-- A part of a text is still there if the text is cut behind it. -/
theorem drop_take_append {α : Type} (front part rest : List α) {n : Nat}
    (h : front.length + part.length ≤ n) :
    ((front ++ (part ++ rest)).take n).drop front.length =
      part ++ rest.take (n - (front.length + part.length)) := by
  rw [List.take_append, List.take_of_length_le (by omega), List.drop_left, List.take_append,
    List.take_of_length_le (by omega), Nat.sub_sub]

theorem step_of_hash {settings : ScanSettings} {c : Cursor} {body : DefineBody} {s : List Char}
    (hstart : c.atLineStart = true) : step settings c body '#' s = directive c body s := by
  rw [step, if_neg (by simp), hstart]
  rfl

/-- What a directive makes of a definition with a parameter list. -/
theorem directive_of_define (c : Cursor) (body : DefineBody)
    {blanks gap list rest text : List Char} {name : String}
    (hblanks : ∀ b ∈ blanks, isLineBlank b = true) (hne : gap ≠ [])
    (hgap : ∀ b ∈ gap, isLineBlank b = true) (hname : isCName name = true)
    (hkind : macroKind? name = none) (hblock : name ≠ autoInitBlock) (hlist : ')' ∉ list)
    (htext : text = gap ++ (name.toList ++ '(' :: (list ++ ')' :: rest)))
    (hline : gap.length + name.length + list.length + 2 ≤ Lexeme.logicalLine text) :
    let next := directive c body (blanks ++ ("define".toList ++ text))
    next.width = 7 + blanks.length + (gap.length + name.length + list.length + 2) ∧
      next.body = { stop := c.offset + (7 + blanks.length + Lexeme.logicalLine text)
                    params := params list } ∧
      next.found = none := by
  obtain ⟨hstart, hchars⟩ := isCName_iff.1 hname
  have hblanks' : (blanks ++ ("define".toList ++ text)).takeWhile isLineBlank = blanks :=
    takeWhile_append_cons hblanks (by decide) ("efine".toList ++ text)
  have hdefine : ("define".toList ++ text).takeWhile isNameChar = "define".toList := by
    obtain ⟨b, gap, rfl⟩ := List.exists_cons_of_ne_nil hne
    have hb := isBlank_of_isLineBlank (hgap b List.mem_cons_self)
    rw [htext]
    exact takeWhile_append_cons (by simp [isNameChar]) (not_isNameChar_of_isBlank hb) _
  have hgap' : text.takeWhile isLineBlank = gap := by
    cases hcons : name.toList with
    | nil =>
      rw [hcons] at hstart
      cases hstart
    | cons first more =>
      rw [hcons] at hstart
      have hfirst : isLineBlank first = false := eq_false_of_ne_true fun hblank => by
        have hblank := not_isNameChar_of_isBlank (isBlank_of_isLineBlank hblank)
        rw [isNameChar_of_isNameStart hstart] at hblank
        cases hblank
      rw [htext, hcons]
      exact takeWhile_append_cons hgap hfirst _
  have hname' : (text.drop gap.length).takeWhile isNameChar = name.toList := by
    rw [htext, List.drop_left]
    exact takeWhile_append_cons hchars rfl _
  obtain ⟨rest', hcut⟩ : ∃ rest', (text.take (Lexeme.logicalLine text)).drop
      (gap.length + name.toList.length) = '(' :: (list ++ ')' :: rest') := by
    have hlength := name.length_toList
    have h := drop_take_append (gap ++ name.toList) ('(' :: (list ++ [')'])) rest
      (n := Lexeme.logicalLine text)
    simp only [List.append_assoc, List.cons_append, List.length_append, List.length_cons,
      List.length_nil, List.nil_append, ← htext] at h
    exact ⟨_, h (by omega)⟩
  have hlist' : (list ++ ')' :: rest').takeWhile (· != ')') = list := by
    refine takeWhile_append_cons (fun d hd => ?_) (by decide) rest'
    exact bne_iff_ne.2 fun heq => hlist (heq ▸ hd)
  have hother : ((macroKind? name).isSome || name == autoInitBlock) = false := by
    simp [hkind, hblock]
  intro next
  have hshort : list.length < (list ++ ')' :: rest').length := by simp
  simp only [next, directive, hblanks', List.drop_left, hdefine, hgap', hname',
    String.ofList_toList, hother, hcut, hlist', hshort, bne_self_eq_false, Bool.false_and,
    Bool.false_eq_true, if_false, if_true]
  have hlength := name.length_toList
  have hseven : "define".toList.length = 6 := rfl
  refine ⟨by omega, ?_, trivial⟩
  congr 1
  omega

/-- The characters of the parameters and of the blanks around them begin no lexeme and
close no parenthesis. -/
theorem notMem_of_mem_list {names : List (List Char)} {variadic : Bool} {list : List Char}
    (hnames : ∀ name ∈ names, isCName (String.ofList name) = true)
    (hlist : Spaced isBlank (parameterTokens names variadic) list) (hline : '\n' ∉ list) :
    ∀ c ∈ list, c ∉ ['\\', '\n', '"', '\'', '/', ')'] := by
  intro c hc hmark
  have hplain : ∀ d ∈ ['\\', '"', '\'', '/', ')'],
      isBlank d = false ∧ d ≠ ',' ∧ d ≠ '.' ∧ isNameChar d = false := by
    simp [isBlank, isNameChar]
  have hne : c ≠ '\n' := fun heq => hline (heq ▸ hc)
  obtain ⟨hblank, hcomma, hdot, hname⟩ := hplain c (by simpa [hne] using hmark)
  obtain ⟨token, htoken, hmem⟩ := hlist.exists_mem hc hblank
  refine forall_mem_intercalate (P := fun token => c ∉ token) ?_ ?_ token htoken hmem
  · exact List.forall_mem_singleton.2 (by simpa using hcomma)
  · intro part hpart token htoken hmem
    obtain ⟨token', htoken', rfl⟩ := List.mem_map.1 hpart
    obtain rfl := List.mem_singleton.1 htoken
    rcases List.mem_append.1 htoken' with hparam | hdots
    · rw [(isCName_ofList.1 (hnames token hparam)).2 c hmem] at hname
      cases hname
    · cases variadic with
      | false => cases hdots
      | true =>
        obtain rfl := List.mem_singleton.1 hdots
        simp [hdot] at hmem

/-- Names with blanks around them stand in one line with the parentheses. -/
theorem definesFunction_of_spaced {blanks gap list rest : List Char} {name : String}
    {names : List (List Char)} {variadic : Bool} (hblanks : ∀ b ∈ blanks, isLineBlank b = true)
    (hne : gap ≠ []) (hgap : ∀ b ∈ gap, isLineBlank b = true) (hname : isCName name = true)
    (hkind : macroKind? name = none) (hblock : name ≠ autoInitBlock)
    (hnames : ∀ name ∈ names, isCName (String.ofList name) = true)
    (hlist : Spaced isBlank (parameterTokens names variadic) list) (hline : '\n' ∉ list) :
    DefinesFunction list
      ('#' :: (blanks ++ ("define".toList ++
        (gap ++ (name.toList ++ '(' :: (list ++ ')' :: rest))))))
      (7 + blanks.length + (gap.length + name.length + list.length + 2))
      (7 + blanks.length + (gap.length + name.length + list.length + 2 +
        Lexeme.logicalLine rest)) := by
  have hmarks := notMem_of_mem_list hnames hlist hline
  have hplain : ∀ c ∈ gap ++ (name.toList ++ '(' :: (list ++ [')'])),
      c ∉ ['\\', '\n', '"', '\'', '/'] := by
    have hchar : ∀ d ∈ ['\\', '\n', '"', '\'', '/'],
        isLineBlank d = false ∧ isNameChar d = false := by
      simp [isLineBlank, isNameChar]
    simp only [List.forall_mem_append, List.forall_mem_cons]
    refine ⟨fun c hc hmark => ?_, fun c hc hmark => ?_, by decide, fun c hc hmark => ?_, by decide,
      List.forall_mem_nil _⟩
    · exact absurd (hgap c hc) (by simp [(hchar c hmark).1])
    · exact absurd ((isCName_iff.1 hname).2 c hc) (by simp [(hchar c hmark).2])
    · exact hmarks c hc (List.mem_append_left [')'] hmark)
  have hlength : Lexeme.logicalLine (gap ++ (name.toList ++ '(' :: (list ++ ')' :: rest))) =
      gap.length + name.length + list.length + 2 + Lexeme.logicalLine rest := by
    have h := logicalLine_append hplain rest
    have hname := name.length_toList
    simp only [List.append_assoc, List.cons_append, List.nil_append, List.length_append,
      List.length_cons, List.length_nil] at h
    omega
  rw [← hlength]
  exact .intro hblanks hne hgap hname hkind hblock (fun hmem => hmarks _ hmem (by simp)) (by omega)

namespace State

variable {settings : ScanSettings} {σ τ : State} {list : List Char} {head line : Nat}

/-- The step at a definition takes its parameters. -/
theorem next?_of_definesFunction (h : DefinesFunction list σ.cursor.after head line)
    (hstart : σ.cursor.atLineStart = true) :
    σ.next? settings = some ⟨σ.cursor.advance head,
      { stop := σ.cursor.offset + line, params := params list }, σ.found⟩ := by
  generalize htext : σ.cursor.after = text at h
  cases h with
  | @intro blanks gap rest name hblanks hne hgap hname hkind hblock hlist hline =>
    obtain ⟨hwidth, hbody, hfound⟩ := directive_of_define σ.cursor σ.body
      hblanks hne hgap hname hkind hblock hlist rfl hline
    rw [next?_of_after htext, step_of_hash hstart, hwidth, hbody, hfound]
    rfl

/-- A directive that defines or undefines a macro begins at the cursor. -/
def atDefine (σ : State) : Bool :=
  match σ.cursor.after with
  | '#' :: s =>
    let name := (s.dropWhile isLineBlank).takeWhile isNameChar
    σ.cursor.atLineStart && (name == "define".toList || name == "undef".toList)
  | _ => false

theorem body_directive {c : Cursor} {body : DefineBody} {s : List Char}
    (h : ∀ name, (s.dropWhile isLineBlank).takeWhile isNameChar = name →
      name ≠ "define".toList ∧ name ≠ "undef".toList) : (directive c body s).body = body := by
  have hdrop : s.drop (s.takeWhile isLineBlank).length = s.dropWhile isLineBlank := by
    have hleft := @List.drop_left _ (s.takeWhile isLineBlank) (s.dropWhile isLineBlank)
    rwa [List.takeWhile_append_dropWhile] at hleft
  obtain ⟨hdefine, hundef⟩ := h _ rfl
  rw [directive, if_pos]
  rw [hdrop, Bool.and_eq_true, bne_iff_ne, bne_iff_ne]
  exact ⟨hdefine, hundef⟩

theorem body_name {c : Cursor} {body : DefineBody} {first : Char} {s : List Char} :
    (name settings c body first s).body = body := by
  simp only [name]
  split
  · rfl
  · split
    · rfl
    · split <;> rfl

/-- No other step forgets the parameters. -/
theorem body_of_next? (h : σ.next? settings = some τ) (hdefine : σ.atDefine = false) :
    τ.body = σ.body := by
  obtain ⟨first, s, hafter, rfl⟩ := of_next? h
  show (step settings σ.cursor σ.body first s).body = σ.body
  rw [step]
  split
  · rfl
  · split
    · next hhash =>
      rw [Bool.and_eq_true, decide_eq_true_eq] at hhash
      obtain ⟨rfl, hstart⟩ := hhash
      rw [atDefine, hafter, hstart] at hdefine
      refine body_directive fun name hname => ?_
      simpa [hname] using hdefine
    · split
      · exact body_name
      · split <;> rfl

/-- The second state is reached from the first one, with no other definition on the
way. -/
def ReachesWithin (settings : ScanSettings) : State → State → Prop :=
  Relation.ReflTransGen fun σ τ => σ.next? settings = some τ ∧ σ.atDefine = false

theorem ReachesWithin.reaches (h : ReachesWithin settings σ τ) : Reaches settings σ τ :=
  Relation.ReflTransGen.mono (fun _ _ => And.left) _ _ h

theorem ReachesWithin.body_eq (h : ReachesWithin settings σ τ) : τ.body = σ.body := by
  induction h with
  | refl => rfl
  | tail _ hnext ih => rw [body_of_next? hnext.1 hnext.2, ih]

/-! ## Invocations in the body -/

/-- An invocation in the body that uses a parameter is passed over. -/
theorem next?_of_usesAny {kind : RecordKind} {ps : List Piece} {width : Nat}
    (h : Invokes σ.cursor.after kind ps width) (hstop : σ.cursor.offset < σ.body.stop)
    (huses : Argument.UsesAny ps σ.body.params) :
    σ.next? settings = some { σ with cursor := σ.cursor.advance width } := by
  obtain ⟨name, args, before, argsWidth, rfl, hextract, hnext⟩ :=
    next?_of_invokes settings h
  have hgives : invocation settings σ.cursor σ.body kind name args = (none, argsWidth) := by
    rw [invocation, hextract]
    simp only [hstop, Argument.mentions_iff.2 huses, decide_true, Bool.and_self, if_true]
  rw [hnext σ.body, hgives]
  rfl

/-- An invocation in the body that uses no parameter is taken as elsewhere. -/
theorem next?_of_not_usesAny {kind : RecordKind} {ps : List Piece} {width : Nat}
    (h : Invokes σ.cursor.after kind ps width) (huses : ¬Argument.UsesAny ps σ.body.params) :
    σ.next? settings =
      ({ σ with body := {} }.next? settings).map fun τ : State => { τ with body := σ.body } := by
  obtain ⟨name, args, before, argsWidth, rfl, hextract, hnext⟩ :=
    next?_of_invokes settings h
  have hmentions : Argument.mentions σ.body.params [] ps = false :=
    eq_false_of_ne_true fun hmentions => huses (Argument.mentions_iff.1 hmentions)
  have hgives : invocation settings σ.cursor σ.body kind name args =
      invocation settings σ.cursor {} kind name args := by
    rw [invocation, invocation, hextract]
    simp [hmentions]
  rw [hnext {}, hnext σ.body, hgives]
  rfl

end State

/-- In the body of a function-like macro an invocation that uses a parameter gives
neither a record nor an error, and the scan goes on behind its closing parenthesis.
Any other invocation there is taken as if it stood elsewhere.  The parameters are the
names between the commas, if only blanks stand around them. -/
theorem State.forwards {settings : ScanSettings} {text : String} {σ : State} {list : List Char}
    {head line : Nat} (hσ : Reaches settings (initial text) σ)
    (hdefine : DefinesFunction list σ.cursor.after head line)
    (hstart : σ.cursor.atLineStart = true) :
    (∀ names variadic, (∀ name ∈ names, isCName (String.ofList name) = true) →
      Spaced isBlank (parameterTokens names variadic) list → params list = names) ∧
    ∃ ρ, σ.next? settings = some ρ ∧ ρ.cursor = σ.cursor.advance head ∧ ρ.found = σ.found ∧
      ∀ τ, ReachesWithin settings ρ τ → τ.cursor.offset < σ.cursor.offset + line →
        ∀ kind ps width, Invokes τ.cursor.after kind ps width →
          (Argument.UsesAny ps (params list) →
            τ.next? settings = some { τ with cursor := τ.cursor.advance width } ∧
              scan settings text =
                { τ with cursor := τ.cursor.advance width }.outcome settings) ∧
          (¬Argument.UsesAny ps (params list) →
            τ.next? settings =
              ({ τ with body := {} }.next? settings).map
                fun υ : State => { υ with body := τ.body }) := by
  refine ⟨fun names variadic => params_of_spaced, _, next?_of_definesFunction hdefine hstart, rfl,
    rfl, fun τ hτ hstop kind ps width hinvokes => ?_⟩
  have hbody := hτ.body_eq
  refine ⟨fun huses => ?_, fun huses => ?_⟩
  · have hnext : τ.next? settings = some { τ with cursor := τ.cursor.advance width } :=
      next?_of_usesAny hinvokes (by rw [hbody]; exact hstop) (by rw [hbody]; exact huses)
    refine ⟨hnext, ?_⟩
    rw [← outcome_initial, hσ.outcome_eq,
      outcome_of_next? (next?_of_definesFunction hdefine hstart), hτ.reaches.outcome_eq,
      outcome_of_next? hnext]
  · exact next?_of_not_usesAny hinvokes (by rw [hbody]; exact huses)

/-! ### Definitions with one invocation -/

/-- A variadic macro that forwards its parameter. -/
def oneParameter : String := "#define LABEL( id , ... )FSPGM(id, \"x\")\n"

theorem spaced_oneParameter :
    Spaced isBlank (parameterTokens ["id".toList] true) " id , ... ".toList :=
  .blank rfl (@Spaced.token _ _ "id".toList _ _ (.blank rfl (@Spaced.token _ _ [','] _ _
    (.blank rfl (@Spaced.token _ _ "...".toList _ _ (.blank rfl .nil))))))

theorem State.forwards_sample :
    ∃ τ : State, scan ⟨"a.cpp", ∅⟩ oneParameter = τ.outcome ⟨"a.cpp", ∅⟩ ∧
      τ.cursor.after = ['\n'] ∧ τ.found = [] := by
  have hnames : ∀ name ∈ ["id".toList], isCName (String.ofList name) = true := by decide
  have hdefine := @definesFunction_of_spaced [] [' '] _ "FSPGM(id, \"x\")\n".toList "LABEL" _ _
    (by simp) (by simp) (by simp [isLineBlank]) (by decide) (by decide) (by decide) hnames
    spaced_oneParameter (by decide)
  have hreaches : Reaches ⟨"a.cpp", ∅⟩ (initial oneParameter) (initial oneParameter) := .refl
  obtain ⟨hparams, ρ, -, hcursor, hfound, hbody⟩ := State.forwards hreaches hdefine rfl
  have hafter : ρ.cursor.after =
      "FSPGM".toList ++ ([] ++ '(' :: ("id, \"x\"".toList ++ ')' :: ['\n'])) := by
    rw [hcursor]
    rfl
  have hlexed : Argument.Lexed 0 "id, \"x\"".toList
      ("id, ".toList.map .char ++ [.literal '"' ['x']]) 0 :=
    .char (by decide) (.char (by decide) (.char (by decide) (.char (by decide)
      (@Argument.Lexed.literal _ _ _ ['x'] _ _ (.inl rfl) rfl .nil))))
  have hinvokes := @Invokes.intro "FSPGM" .reference [] _ _ _ (by decide) (trivia_parenthesis _)
    (hlexed.extract_eq ['\n'])
  rw [← hafter] at hinvokes
  have huses : Argument.UsesAny ("id, ".toList.map .char ++ [.literal '"' ['x']])
      (params " id , ... ".toList) := by
    rw [hparams _ _ hnames spaced_oneParameter]
    refine ⟨"id".toList, by simp, by decide, [], _, rfl, nofun, ?_⟩
    rintro _ ⟨⟩
    rfl
  obtain ⟨-, hscan⟩ :=
    (hbody ρ .refl (by rw [hcursor]; decide +kernel) _ _ _ hinvokes).1 huses
  refine ⟨_, hscan, ?_, hfound⟩
  show ρ.cursor.after.drop _ = _
  rw [hafter]
  rfl

/-- A comment or a continued line beside a parameter hides it, a parenthesis in a comment
ends the list, and the extra arguments of a variadic macro count as a name. -/
theorem scan_forwarding_examples :
    (recordsOf (scan ⟨"a.cpp", ∅⟩ "#define L(a /* first */, b) FSPGM(a)\n")).map (·.identifier) =
        ["a"] ∧
      (recordsOf (scan ⟨"a.cpp", ∅⟩ "#define L(a, \\\n b) FSPGM(b)\n")).map (·.identifier) =
        ["b"] ∧
      (recordsOf (scan ⟨"a.cpp", ∅⟩ "#define L(/* (x) */ a) FSPGM(a)\n")).map (·.identifier) =
        ["a"] ∧
      (recordsOf (scan ⟨"a.cpp", ∅⟩ "#define L(...) FSPGM(__VA_ARGS__)\n")).map (·.identifier) =
        ["__VA_ARGS__"] := by
  refine ⟨by decide +kernel, by decide +kernel, by decide +kernel, by decide +kernel⟩

end Scan

end FlashStrings
