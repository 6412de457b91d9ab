import FlashStrings.Proofs.Source.Comments
import FlashStrings.Proofs.Source.Composed

/-!
# Places of invocations

A record is taken at a place of its source: behind some text stand the name of a macro, a
gap and the parenthesis (`Scan.Takes`).  A place has one location, so another source with the
same text in front has at most one record at it, which is taken there as well
(`Scan.Takes.of_location`).

Whether it has one depends on the arguments, and on the scan, which has to come to the place
(`Scan.Stands`).  It does, whatever the arguments are (`Scan.ScansTo`), in the body of a
macro that is defined behind text that is scanned through (`Scan.ScansThrough.scansTo_define`).
-/

namespace FlashStrings

namespace Scan

open Argument (extract mentions)

/-- Where an invocation stands: what is before it, the name of its macro, and the gap
between the name and the parenthesis. -/
structure Site where
  before : List Char
  name : String
  gap : List Char

/-- The source with these characters behind the parenthesis. -/
def Site.source (site : Site) (args : List Char) : List Char :=
  site.before ++ (site.name.toList ++ (site.gap ++ '(' :: args))

/-- The cursor at the name. -/
def Site.cursor (site : Site) (args : List Char) : Cursor :=
  ⟨site.before.reverse, site.name.toList ++ (site.gap ++ '(' :: args)⟩

variable {settings : ScanSettings} {text : String} {r : Record} {site : Site}
  {args : List Char} {ps : List Piece}

/-- The parameters of the macro in whose body the cursor stands. -/
def State.parameters (σ : State) : List (List Char) :=
  if σ.cursor.offset < σ.body.stop then σ.body.params else []

/-- The scan comes to the invocation, whose arguments use no parameter of a macro in whose
body it stands. -/
def Stands (settings : ScanSettings) (site : Site) (args : List Char) : Prop :=
  ∃ σ, State.Reaches settings { cursor := .start (site.source args) } σ ∧
    σ.cursor = site.cursor args ∧
    ∀ ps width, extract args = .ok (ps, width) → mentions σ.parameters [] ps = false

/-- The scan of the text takes the invocation as the record. -/
structure Takes (settings : ScanSettings) (text : String) (r : Record) (site : Site)
    (args : List Char) (ps : List Piece) : Prop where
  source_eq : withoutMark text = site.source args
  kind_eq : macroKind? site.name = some r.kind
  gap : Gap site.gap
  extract_eq : ∃ width, extract args = .ok (ps, width)
  read_eq : readArguments settings r.kind ps = .ok ⟨r.identifier, r.value⟩
  stands : Stands settings site args
  location_eq : r.location = location settings (site.cursor args)

theorem mentions_nil (ps : List Piece) : mentions [] [] ps = false := by
  refine Bool.eq_false_iff.2 fun h => ?_
  obtain ⟨name, hmem, -⟩ := Argument.mentions_iff.1 h
  cases hmem

theorem mentions_parameters {σ : State} : mentions σ.parameters [] ps = false ↔
    ¬(σ.cursor.offset < σ.body.stop ∧ mentions σ.body.params [] ps = true) := by
  rw [State.parameters, ← Bool.not_eq_true]
  split
  · next hwithin => exact not_congr (and_iff_right hwithin).symm
  · next hbehind => exact iff_of_true (by simp [mentions_nil]) fun h => hbehind h.1

/-- An invocation gives a record if its arguments are read and forward nothing. -/
theorem invocation_eq_record_iff {c : Cursor} {body : DefineBody} {kind : RecordKind}
    {name : String} :
    (invocation settings c body kind name args).1 = some (.record r) ↔
      ∃ ps width, extract args = .ok (ps, width) ∧
        ¬(c.offset < body.stop ∧ mentions body.params [] ps = true) ∧
        readArguments settings kind ps = .ok ⟨r.identifier, r.value⟩ ∧ r.kind = kind ∧
        r.location = location settings c := by
  constructor
  · intro h
    rw [invocation] at h
    split at h
    · cases h
    next ps width hextract =>
    split at h
    · cases h
    next hforwards =>
    split at h
    · cases h
    next hread =>
    obtain rfl := Finding.record.inj (Option.some.inj h)
    exact ⟨ps, width, hextract, by simpa using hforwards, hread, rfl, rfl⟩
  · rintro ⟨ps, width, hextract, hforwards, hread, rfl, hlocation⟩
    rw [invocation, hextract]
    dsimp only
    rw [if_neg (by simpa using hforwards), hread]
    dsimp only
    rw [← hlocation]

/-- The step at the invocation finds what its arguments give. -/
theorem Site.next?_eq (settings : ScanSettings) {σ : State} {kind : RecordKind}
    (hkind : macroKind? site.name = some kind) (hgap : Gap site.gap)
    (hcursor : σ.cursor = site.cursor args) :
    ∃ τ, σ.next? settings = some τ ∧
      τ.found = (invocation settings σ.cursor σ.body kind site.name args).1.toList ++ σ.found := by
  have hafter : σ.cursor.after = site.name.toList ++ (site.gap ++ '(' :: args) := by
    rw [hcursor]
    rfl
  obtain ⟨first, s, hcons⟩ := List.exists_cons_of_ne_nil
    (show site.name.toList ++ (site.gap ++ '(' :: args) ≠ [] by simp)
  obtain ⟨-, -, hfound⟩ :=
    step_of_invocation settings σ.cursor σ.body hkind (hgap.trivia_eq args) hcons.symm
  exact ⟨_, State.next?_of_after (hafter.trans hcons), by rw [hfound]⟩

/-- What a scan gives was found at the place of an invocation. -/
theorem exists_site_of_mem_scan {x : Finding} (hx : x ∈ scan settings text) :
    ∃ (σ : State) (kind : RecordKind) (site : Site) (args : List Char),
      State.Reaches settings (initial text) σ ∧ σ.cursor = site.cursor args ∧
      withoutMark text = site.source args ∧ macroKind? site.name = some kind ∧ Gap site.gap ∧
      (invocation settings σ.cursor σ.body kind site.name args).1 = some x := by
  obtain ⟨σ, first, s, hσ, hafter, hfound⟩ := State.exists_of_mem_scan hx
  obtain ⟨kind, name, gap, args, hkind, hsplit, hgap, hinvocation⟩ := exists_of_found hfound
  have hsource : σ.cursor.text = withoutMark text := hσ.text_eq
  refine ⟨σ, kind, ⟨σ.cursor.before.reverse, name, gap⟩, args, hσ, ?_, ?_, hkind, hgap, hinvocation⟩
  · show σ.cursor = ⟨σ.cursor.before.reverse.reverse, name.toList ++ (gap ++ '(' :: args)⟩
    rw [List.reverse_reverse, ← hsplit, ← hafter]
  · rw [← hsource, Cursor.text, hafter, hsplit]
    rfl

theorem exists_takes (hr : r ∈ recordsOf (scan settings text)) :
    ∃ site args ps, Takes settings text r site args ps := by
  obtain ⟨σ, _, site, args, hσ, hcursor, hsource, hkind, hgap, hinvocation⟩ :=
    exists_site_of_mem_scan (mem_recordsOf.1 hr)
  obtain ⟨ps, width, hextract, hforwards, hread, rfl, hlocation⟩ :=
    invocation_eq_record_iff.1 hinvocation
  refine ⟨site, args, ps, ⟨hsource, hkind, hgap, ⟨width, hextract⟩, hread, ⟨σ, ?_, hcursor, ?_⟩,
    hcursor ▸ hlocation⟩⟩
  · rwa [initial, hsource] at hσ
  · intro ps' width' hextract'
    obtain ⟨rfl, -⟩ := Prod.mk.inj (Except.ok.inj (hextract.symm.trans hextract'))
    exact mentions_parameters.2 hforwards

theorem mem_scan_of_stands {text : String} {kind : RecordKind} {x : Finding}
    (hsource : withoutMark text = site.source args) (hkind : macroKind? site.name = some kind)
    (hgap : Gap site.gap) {σ : State}
    (hσ : State.Reaches settings { cursor := .start (site.source args) } σ)
    (hcursor : σ.cursor = site.cursor args)
    (hx : (invocation settings σ.cursor σ.body kind site.name args).1 = some x) :
    x ∈ scan settings text := by
  obtain ⟨τ, hnext, hfound⟩ := Site.next?_eq settings hkind hgap hcursor
  have hτ : State.Reaches settings (initial text) τ := by
    rw [initial, hsource]
    exact hσ.tail hnext
  refine hτ.found_subset_scan ?_
  rw [hfound, hx]
  exact List.mem_cons_self

theorem Takes.mem (h : Takes settings text r site args ps) :
    r ∈ recordsOf (scan settings text) := by
  obtain ⟨σ, hσ, hcursor, hforwards⟩ := h.stands
  obtain ⟨width, hextract⟩ := h.extract_eq
  refine mem_recordsOf.2 (mem_scan_of_stands h.source_eq h.kind_eq h.gap hσ hcursor ?_)
  exact invocation_eq_record_iff.2
    ⟨ps, width, hextract, mentions_parameters.1 (hforwards ps width hextract), h.read_eq, rfl,
      hcursor ▸ h.location_eq⟩

/-- An invocation whose literal is not closed is refused. -/
theorem exists_error_of_stands (h : Stands settings site args) {kind : RecordKind} {text : String}
    (hsource : withoutMark text = site.source args) (hkind : macroKind? site.name = some kind)
    (hgap : Gap site.gap) {e : ArgumentError} (hextract : extract args = .error e) :
    ∃ error ∈ errorsOf (scan settings text),
      error.location = location settings (site.cursor args) ∧ error.error = e := by
  obtain ⟨σ, hσ, hcursor, -⟩ := h
  have hrefused : (invocation settings σ.cursor σ.body kind site.name args).1 =
      (invocation.refuse settings σ.cursor site.name e).1 := by
    rw [invocation, hextract]
  have hmem := mem_scan_of_stands hsource hkind hgap hσ hcursor hrefused
  exact ⟨_, List.mem_filterMap.2 ⟨_, hmem, rfl⟩, by rw [hcursor], rfl⟩

/-! ## Locations -/

/-- A place of a text has a location of its own. -/
theorem before_eq_of_location {c c' : Cursor} (htext : c'.text = c.text)
    (h : location settings c' = location settings c) : c'.before = c.before := by
  have hbehind {before before' : List Char} (more : List Char)
      (hsplit : before' = more ++ before) (hline : before'.count '\n' = before.count '\n')
      (hcol : (before'.takeWhile (· != '\n')).length = (before.takeWhile (· != '\n')).length) :
      before' = before := by
    subst hsplit
    have hnone : '\n' ∉ more := by
      rw [List.count_append] at hline
      exact List.count_eq_zero.1 (by omega)
    rw [List.takeWhile_append_of_pos (bne_of_notMem hnone), List.length_append] at hcol
    rw [List.length_eq_zero_iff.1 (show more.length = 0 by omega), List.nil_append]
  obtain ⟨-, hline, hcol⟩ := Location.mk.inj h
  have hline : c'.before.count '\n' = c.before.count '\n' := Nat.succ.inj hline
  have hcol : (c'.before.takeWhile (· != '\n')).length =
      (c.before.takeWhile (· != '\n')).length := Nat.succ.inj hcol
  rcases List.append_eq_append_iff.1 htext with ⟨more, hmore, -⟩ | ⟨more, hmore, -⟩
  · refine (hbehind more.reverse ?_ hline.symm hcol.symm).symm
    rw [← List.reverse_reverse c.before, hmore]
    simp
  · refine hbehind more.reverse ?_ hline hcol
    rw [← List.reverse_reverse c'.before, hmore]
    simp

theorem Site.takeWhile_name {kind : RecordKind} (hkind : macroKind? site.name = some kind)
    (hgap : Gap site.gap) (args : List Char) :
    (site.name.toList ++ (site.gap ++ '(' :: args)).takeWhile isNameChar = site.name.toList := by
  obtain ⟨-, hchars, -⟩ := name_of_macroKind? hkind
  rw [List.takeWhile_append_of_pos (List.all_eq_true.1 hchars)]
  cases hrest : site.gap ++ '(' :: args with
  | nil => simp at hrest
  | cons d rest =>
    have hd : isNameChar d = false := hgap.head args (by rw [hrest]; rfl)
    rw [List.takeWhile_cons_of_neg (by simp [hd]), List.append_nil]

/-- A text holds one invocation at a place. -/
theorem Site.unique {site' : Site} {args' : List Char} {kind kind' : RecordKind}
    (hkind : macroKind? site.name = some kind) (hgap : Gap site.gap)
    (hkind' : macroKind? site'.name = some kind') (hgap' : Gap site'.gap)
    (hbefore : site'.before = site.before) (hsource : site'.source args' = site.source args) :
    site' = site ∧ args' = args := by
  obtain ⟨before, name, gap⟩ := site
  obtain ⟨before', name', gap'⟩ := site'
  obtain rfl : before' = before := hbefore
  have hafter : name'.toList ++ (gap' ++ '(' :: args') = name.toList ++ (gap ++ '(' :: args) :=
    List.append_cancel_left hsource
  have hname : name'.toList = name.toList := by
    have htake := congrArg (List.takeWhile isNameChar) hafter
    have htake' := @takeWhile_name ⟨before', name', gap'⟩ _ hkind' hgap' args'
    exact htake'.symm.trans (htake.trans (@takeWhile_name ⟨before', name, gap⟩ _ hkind hgap args))
  obtain rfl := String.toList_inj.1 hname
  have hrest := List.append_cancel_left hafter
  have hlength : gap'.length = gap.length := by
    rw [← hgap'.trivia_eq args', ← hgap.trivia_eq args, hrest]
  obtain ⟨rfl, hargs⟩ := List.append_inj hrest hlength
  exact ⟨rfl, (List.cons.inj hargs).2⟩

theorem Site.text_cursor (site : Site) (args : List Char) :
    (site.cursor args).text = site.source args := by
  rw [Cursor.text, cursor, source, List.reverse_reverse]

theorem Site.location_eq (settings : ScanSettings) (site : Site) (args args' : List Char) :
    location settings (site.cursor args') = location settings (site.cursor args) := rfl

/-- A record at the place of an invocation is the one that this invocation gives. -/
theorem Takes.of_location {text' : String} {r' : Record} {args' : List Char}
    (h : Takes settings text r site args ps) (hsource : withoutMark text' = site.source args')
    (hr' : r' ∈ recordsOf (scan settings text')) (hlocation : r'.location = r.location) :
    ∃ ps', Takes settings text' r' site args' ps' := by
  obtain ⟨site', args'', ps', h'⟩ := exists_takes hr'
  have htext := h'.source_eq.symm.trans hsource
  have hsame : location settings (site'.cursor args'') = location settings (site.cursor args') := by
    rw [← h'.location_eq, hlocation, h.location_eq, Site.location_eq]
  have hbefore := before_eq_of_location
    ((Site.text_cursor ..).trans (htext.trans (Site.text_cursor ..).symm)) hsame
  obtain ⟨rfl, rfl⟩ := Site.unique h.kind_eq h.gap h'.kind_eq h'.gap
    (List.reverse_injective hbefore) htext
  exact ⟨ps', h'⟩

/-! ## Text that is scanned through -/

/-- Whatever stands behind the text, the scan comes to its end, outside of the bodies of
macros. -/
def ScansThrough (settings : ScanSettings) (front : List Char) : Prop :=
  ∀ t, ∃ σ, State.Reaches settings { cursor := .start (front ++ t) } σ ∧
    σ.cursor = ⟨front.reverse, t⟩ ∧ σ.body.stop ≤ front.length

/-- Code of words that name no string macro, each with a mark behind it.  No mark begins a
literal, a comment or a directive. -/
inductive Plain : List Char → Prop where
  | nil : Plain []
  | mark {c : Char} {w : List Char} :
    isNameChar c = false → c ∉ ['\'', '"', '/', '#'] → Plain w → Plain (c :: w)
  | word {first : Char} {more w : List Char} :
    (∀ c ∈ first :: more, isNameChar c = true) → macroKind? (String.ofList (first :: more)) = none →
    w ≠ [] → (∀ c ∈ w.head?, isNameChar c = false) → Plain w → Plain (first :: (more ++ w))

theorem Plain.head?_ne_quote {w : List Char} (h : Plain w) : w.head? ≠ some '"' := by
  cases h with
  | nil => nofun
  | mark _ hc => rintro ⟨⟩; simp at hc
  | word hword =>
    rintro ⟨⟩
    cases hword _ List.mem_cons_self

/-- The step at a word that names no string macro takes the word. -/
theorem step_of_word {c : Cursor} {body : DefineBody} {first : Char} {more rest : List Char}
    (hword : ∀ c ∈ first :: more, isNameChar c = true)
    (hkind : macroKind? (String.ofList (first :: more)) = none)
    (htake : (more ++ rest).takeWhile isNameChar = more) (hquote : rest.head? ≠ some '"') :
    (step settings c body first (more ++ rest)).width = (first :: more).length ∧
      (step settings c body first (more ++ rest)).body = body ∧
      (step settings c body first (more ++ rest)).found = none := by
  have hlength : 1 + more.length = (first :: more).length := Nat.add_comm ..
  by_cases hstart : isNameStart first = true
  · obtain ⟨hwidth, hbody, hfound⟩ := name_eq htake settings c body first
    have hnamed : namedStep settings c body first more rest = (1 + more.length, none) := by
      simp only [namedStep, hkind, beq_eq_false_iff_ne.2 hquote, Bool.false_and,
        Bool.false_eq_true, if_false]
    rw [step_of_isNameStart hstart, hwidth, hbody, hfound, hnamed]
    exact ⟨hlength, rfl, rfl⟩
  · have hchar := hword first List.mem_cons_self
    have hdigit : first.isDigit = true := by simpa [isNameChar_eq, hstart] using hchar
    have hmark : first ≠ '\'' ∧ first ≠ '#' := by
      constructor <;> rintro rfl <;> cases hchar
    rw [step, if_neg (by simp [hmark.1]), if_neg (by simp [hmark.2]), if_neg hstart, if_pos hdigit]
    exact ⟨by rw [← hlength]; exact congrArg (1 + ·.length) htake, rfl, rfl⟩

/-- The scan goes through plain code and finds nothing. -/
theorem Plain.reaches {w : List Char} (h : Plain w) (settings : ScanSettings)
    (before t : List Char) (body : DefineBody) (found : List Finding) :
    State.Reaches settings ⟨⟨before, w ++ t⟩, body, found⟩
      ⟨⟨w.reverse ++ before, t⟩, body, found⟩ := by
  induction h generalizing before with
  | nil => exact .refl
  | @mark c w hname hc _ ih =>
    simp only [List.mem_cons, List.not_mem_nil, or_false, not_or] at hc
    obtain ⟨hwidth, hbody, hfound⟩ := @step_of_notMem settings ⟨before, c :: (w ++ t)⟩ body c
      (w ++ t) (by simp [hc]) hname
    have hnext := @State.next?_of_after settings ⟨⟨before, c :: (w ++ t)⟩, body, found⟩ c
      (w ++ t) rfl
    rw [hwidth, hbody, hfound, Lexeme.width_of_notMem (by simp [hc])] at hnext
    rw [List.reverse_cons, List.append_assoc]
    exact .head hnext (ih (c :: before))
  | @word first more w hword hkind hne hhead hw ih =>
    obtain ⟨d, w, rfl⟩ := List.exists_cons_of_ne_nil hne
    have htake : (more ++ (d :: w ++ t)).takeWhile isNameChar = more := by
      rw [List.takeWhile_append_of_pos fun c hc => hword c (List.mem_cons_of_mem _ hc),
        List.cons_append, List.takeWhile_cons_of_neg (by simp [hhead d rfl]), List.append_nil]
    obtain ⟨hwidth, hbody, hfound⟩ := @step_of_word settings
      ⟨before, first :: (more ++ (d :: w ++ t))⟩ body first more (d :: w ++ t) hword hkind htake
      hw.head?_ne_quote
    have hnext := @State.next?_of_after settings
      ⟨⟨before, first :: (more ++ (d :: w ++ t))⟩, body, found⟩ first (more ++ (d :: w ++ t)) rfl
    have hadvance := Cursor.advance_append before (first :: more) (d :: w ++ t)
    rw [List.cons_append] at hadvance
    rw [hwidth, hbody, hfound, hadvance] at hnext
    have hback : (first :: (more ++ d :: w)).reverse ++ before =
        (d :: w).reverse ++ ((first :: more).reverse ++ before) := by simp
    rw [List.cons_append, List.append_assoc, hback]
    exact .head hnext (ih _)

theorem scansThrough_nil (settings : ScanSettings) : ScansThrough settings [] :=
  fun _ => ⟨_, .refl, rfl, Nat.le_refl 0⟩

/-! ## Places that the scan comes to -/

/-- Whatever the arguments are, the scan comes to the invocation, where these names are the
parameters. -/
def ScansTo (settings : ScanSettings) (site : Site) (names : List (List Char)) : Prop :=
  ∀ args, ∃ σ, State.Reaches settings { cursor := .start (site.source args) } σ ∧
    σ.cursor = site.cursor args ∧ σ.parameters = names

theorem ScansTo.stands {names : List (List Char)} (h : ScansTo settings site names)
    (hps : ∀ ps width, extract args = .ok (ps, width) → mentions names [] ps = false) :
    Stands settings site args := by
  obtain ⟨σ, hσ, hcursor, rfl⟩ := h args
  exact ⟨σ, hσ, hcursor, hps⟩

/-- A record uses none of the parameters. -/
theorem Takes.mentions_eq {names : List (List Char)} (h : Takes settings text r site args ps)
    (hto : ScansTo settings site names) : mentions names [] ps = false := by
  obtain ⟨width, hextract⟩ := h.extract_eq
  obtain ⟨τ, hτ, hcursor', hps⟩ := h.stands
  obtain ⟨σ, hσ, hcursor, rfl⟩ := hto args
  rw [hσ.eq_of_cursor hτ (hcursor.trans hcursor'.symm)]
  exact hps ps width hextract

/-- Behind the mark of a directive: the definition of a macro that is no string macro, with
these parameters.  The line goes on with `body`, and no lexeme begins behind its name. -/
inductive DefineLine (s : List Char) (names : List (List Char)) (body : List Char) : Prop where
  | intro {blanks name gap defined list : List Char} :
    DirectiveParts s blanks name gap defined (list ++ body) →
    DirectiveParts.defines name = true → DirectiveParts.isReserved defined = false →
    parameterList (list ++ body) = (list.length, names) →
    (∀ more, list ++ body = '(' :: more → ')' ∈ more) → list ++ body ≠ [] →
    (∀ c ∈ list ++ body, c ∉ ['\\', '\n', '"', '\'', '/']) → DefineLine s names body

/-- The step at a definition takes the parameters.  Where the line goes on, that is body. -/
theorem DefineLine.step_eq {s body : List Char} {names : List (List Char)} {first : Char}
    (h : DefineLine s names body) {c : Cursor} (hstart : c.atLineStart = true)
    (hfirst : isNameStart first = true) (settings : ScanSettings) (b : DefineBody) (t : List Char) :
    ∃ head stop, '#' :: s = head ++ body ∧
      (step settings c b '#' (s ++ first :: t)).width = head.length ∧
      (step settings c b '#' (s ++ first :: t)).body = ⟨stop, names⟩ ∧
      c.offset + ('#' :: s).length < stop := by
  obtain @⟨blanks, name, gap, defined, list, hparts, hdefines, hreserved, hnames, hclosed, hne,
    hline⟩ := h
  have hopen : first ≠ '(' := by
    rintro rfl
    cases hfirst
  obtain ⟨m, hm⟩ : ∃ m, Lexeme.logicalLine (first :: t) = m + 1 := by
    have hchar := notMem_of_isNameChar (isNameChar_of_isNameStart hfirst)
    exact ⟨_, (logicalLine_append (List.forall_mem_singleton.2 hchar) t).trans (Nat.add_comm ..)⟩
  have hall := hparts.append (by simp [hne]) (first :: t) fun hnil => absurd hnil hne
  have hnames' : parameterList ((list ++ body ++ first :: t).take
      (Lexeme.logicalLine (list ++ body ++ first :: t))) = (list.length, names) := by
    rw [logicalLine_append hline, hm, List.take_length_add_append, List.take_succ_cons,
      parameterList_append hclosed hopen, hnames]
  obtain ⟨hwidth, hstop⟩ := hall.directive_eq c b
  rw [step_of_hash hstart, hwidth, hstop, if_pos hdefines, if_neg (by simp [hreserved]),
    if_pos ⟨hdefines, hreserved⟩, hnames', logicalLine_append hline, hm, hparts.eq]
  refine ⟨'#' :: (blanks ++ (name ++ (gap ++ (defined ++ list)))), _, by simp, ?_, rfl, ?_⟩
  · simp only [List.length_cons, List.length_append]
    omega
  · simp only [List.length_cons, List.length_append]
    omega

/-- In the body of a macro, behind plain code, its parameters are the names. -/
theorem ScansThrough.scansTo_define {front s body : List Char} {names : List (List Char)}
    {kind : RecordKind} (h : ScansThrough settings front)
    (hstart : (Cursor.mk front.reverse []).atLineStart = true) (hdefine : DefineLine s names body)
    (hbody : Plain body) (hbefore : site.before = front ++ '#' :: s)
    (hkind : macroKind? site.name = some kind) : ScansTo settings site names := by
  intro args
  obtain ⟨⟨first, more, hname, hfirst⟩, -⟩ := name_of_macroKind? hkind
  let t := site.name.toList ++ (site.gap ++ '(' :: args)
  have ht : t = first :: (more ++ (site.gap ++ '(' :: args)) := by
    rw [← List.cons_append, ← hname]
  obtain ⟨⟨cursor, b, found⟩, hσ, hcursor, -⟩ := h ('#' :: (s ++ t))
  obtain rfl : cursor = _ := hcursor
  obtain ⟨head, stop, hhead, hwidth, hstep, hlt⟩ :=
    hdefine.step_eq (c := ⟨front.reverse, '#' :: (s ++ t)⟩) hstart hfirst settings b
      (more ++ (site.gap ++ '(' :: args))
  have hafter : '#' :: (s ++ t) = head ++ (body ++ t) := by
    rw [← List.cons_append, hhead, List.append_assoc]
  have hnext := @State.next?_of_after settings ⟨⟨front.reverse, '#' :: (s ++ t)⟩, b, found⟩ '#'
    (s ++ t) rfl
  rw [← ht] at hwidth hstep
  dsimp only at hnext
  rw [hwidth, hstep, hafter, Cursor.advance_append] at hnext
  have hsource : site.source args = front ++ '#' :: (s ++ t) := by
    rw [Site.source, hbefore, List.append_assoc]
    rfl
  rw [hafter] at hσ hsource
  refine ⟨_, hsource ▸ hσ.trans (.head hnext (hbody.reaches settings _ t _ _)), ?_, ?_⟩
  · rw [Site.cursor, hbefore, hhead]
    simp [t]
  · rw [hhead] at hlt
    refine if_pos ?_
    simp only [Cursor.offset, List.length_append, List.length_reverse] at hlt ⊢
    omega

/-- The scan comes to an invocation in the body of a macro without parameters. -/
theorem scansTo_inBody (settings : ScanSettings) :
    ScansTo settings ⟨"#define T ".toList, "SPGM", []⟩ [] := by
  have hparts : DirectiveParts "define T ".toList [] "define".toList [' '] ['T'] [' '] :=
    ⟨rfl, rfl, rfl, rfl, rfl, List.forall_mem_singleton.2 rfl, List.forall_mem_singleton.2 rfl⟩
  have hdefine : DefineLine "define T ".toList [] [' '] :=
    @DefineLine.intro _ _ _ _ _ _ _ [] hparts rfl rfl rfl nofun nofun
      (List.forall_mem_singleton.2 (by decide))
  have hkind : macroKind? "SPGM" = some .reference := rfl
  have hplain : Plain [' '] := .mark rfl (by decide) .nil
  exact (scansThrough_nil settings).scansTo_define rfl hdefine hplain rfl hkind

end Scan

end FlashStrings
