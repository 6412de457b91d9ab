import FlashStrings.Proofs.Invocation.Contents
import FlashStrings.Proofs.Literal.Spliced
import FlashStrings.Proofs.Source.Quotes
import FlashStrings.Proofs.Source.Segments
import FlashStrings.Proofs.Source.Sites

/-!
# Continued literals in a source

A literal among the arguments of a record is continued on the next line: a backslash and a
newline are put between two of its characters, in no escape sequence.  The record is found
again (`Scan.FoundAgain`), with texts whose initialisers are the same bytes to a compiler
(`Scan.SameBytes`), but for three cases:

* the place needs a break of the initialiser, which the continuation suppresses
  (`NeedsBreak`);
* a code is given its text twice, and only one of the two literals is continued;
* the scan does not come to the invocation any more, since an invocation around it, which
  was refused, now uses a parameter of a macro.

With a carriage return before the newline the literal is not closed, and there is no
record.
-/

namespace FlashStrings

namespace Scan

open Argument (extract ComesToQuote PiecesSay)
open CLiteral (compiled?)

variable {settings : ScanSettings} {text : String} {r : Record} {site : Site}
  {args : List Char} {ps : List Piece}

/-! ## The record of the changed source -/

/-- The initialisers of two texts are the same bytes to a compiler. -/
def SameBytes (text text' : String) : Prop :=
  compiled? (initializerOf text).toList = compiled? (initializerOf text').toList

theorem sameBytes_of_wrapped {contents contents' : List (List Char)}
    (h : List.Forall₂ Wrapped contents contents') :
    SameBytes (String.ofList (concatSegments contents))
      (String.ofList (concatSegments contents')) := by
  rw [SameBytes, initializerOf, initializerOf]
  simp only [String.toList_ofList, compiled?, spliced_initializer_of_wrapped h]

variable {before after : List Piece} {u v : List Char} {width : Nat} {ps' : List Piece}

/-- How contents change that are continued between `u` and `v`. -/
abbrev WrappedAt (u v s t : List Char) : Prop := ¬NeedsBreak u v → Wrapped s t

/-- Pieces of which one literal is continued. -/
theorem alike_wrapped
    (h : extract args = .ok (before ++ .literal '"' (u ++ v) :: after, width)) (hu : u ≠ [])
    (hv : v ≠ []) (hplace : BetweenEscapes u v) :
    PiecesAlike (WrappedAt u v) (before ++ .literal '"' (u ++ v) :: after)
      (before ++ .literal '"' (u ++ (continuation ++ v)) :: after) := by
  have hquotable {body : List Char}
      (hmem : .literal '"' body ∈ before ++ .literal '"' (u ++ v) :: after) :
      isQuotable body = true := by
    obtain ⟨_, _, -, hbody⟩ :=
      (Argument.closed_of_collect h hmem).resolve_left List.not_mem_nil
    exact isQuotable_of_quoted? hbody
  have hsame : ∀ p ∈ before ++ .literal '"' (u ++ v) :: after, Piece.Alike (WrappedAt u v) p p := by
    intro p hp
    cases p with
    | char c => exact .char c
    | literal q body =>
      by_cases hq : q = '"'
      · subst hq
        exact .literal fun _ => .same (isClosed_of_isQuotable (hquotable hp))
      · exact .other hq
  have hliteral : WrappedAt u v (u ++ v) (u ++ (continuation ++ v)) := by
    intro hbreak
    have hbody := hquotable (List.mem_append_right _ List.mem_cons_self)
    refine .continued (isClosed_of_isQuotable hbody) hu hv hplace hbreak fun hnewline => ?_
    obtain ⟨v, rfl⟩ := List.head?_eq_some_iff.1 hnewline
    have hback := (isQuotable_of_append hbody hplace.isClosed).2
    rw [isQuotable_cons (by decide)] at hback
    simp at hback
  refine List.rel_append (List.forall₂_same.2 fun p hp => hsame p ?_)
    (.cons (.literal hliteral) (List.forall₂_same.2 fun p hp => hsame p ?_))
  · exact List.mem_append_left _ hp
  · exact List.mem_append_right _ (List.mem_cons_of_mem _ hp)

/-- What the arguments say is read if no code is given two texts, and there is a text if the
macro needs one. -/
theorem readArguments_eq_ok_iff {kind : RecordKind} {read : Invocation} {identifier : String}
    {said : Said} (h : PiecesSay settings.defines ps identifier said) :
    readArguments settings kind ps = .ok read ↔
      ∃ w, Argument.assignAll { fallback := said.fallback } said.pairs = .ok w ∧
        read = ⟨identifier, w.normalizeWildcard⟩ ∧
        (needsText kind = true → read.value.fallback.isSome = true) := by
  constructor
  · intro hread
    obtain ⟨hall, hneeds⟩ := readArguments_eq_ok hread
    rw [h.readAll_eq] at hall
    obtain ⟨w, hw, rfl⟩ := map_eq_ok hall
    exact ⟨w, hw, rfl, hneeds⟩
  · rintro ⟨w, hw, rfl, hneeds⟩
    rw [readArguments, h.readAll_eq, hw]
    refine if_neg ?_
    rw [Bool.and_eq_true, Option.isNone_iff_eq_none]
    rintro ⟨hkind, hnone⟩
    have hsome := hneeds hkind
    rw [hnone] at hsome
    cases hsome

/-- Arguments with other contents are read as before, unless a code is given two texts. -/
theorem readArguments_alike {R : List Char → List Char → Prop} {S : String → String → Prop}
    {kind : RecordKind} {read : Invocation} (hdefines : settings.defines.Keep R)
    (htexts : ∀ text text', TextAlike R text text' → S text text') (h : PiecesAlike R ps ps')
    (hread : readArguments settings kind ps = .ok read) :
    ∃ said, PiecesSay settings.defines ps' read.identifier said ∧
      (Consistent said.pairs ↔ ∃ read', readArguments settings kind ps' = .ok read') ∧
      ∀ read', readArguments settings kind ps' = .ok read' →
        read'.identifier = read.identifier ∧ read.value.Alike S read'.value := by
  obtain ⟨-, said, hsaid⟩ := Argument.exists_piecesSay (readArguments_eq_ok hread).1
  obtain ⟨said', hsaid', halike⟩ := hsaid.exists_alike hdefines h
  obtain ⟨w, hw, heq, hneeds⟩ := (readArguments_eq_ok_iff hsaid).1 hread
  have hvalue {w' : Value}
      (hw' : Argument.assignAll { fallback := said'.fallback } said'.pairs = .ok w') :
      read.value.Alike S w'.normalizeWildcard := by
    rw [heq]
    exact Value.alike_normalizeWildcard fun key =>
      Value.imp_alike (halike.at? hw hw' key) htexts
  refine ⟨said', hsaid', ⟨fun hconsistent => ?_, ?_⟩, fun read' h' => ?_⟩
  · obtain ⟨w', hw'⟩ := Said.exists_assignAll_eq_ok hconsistent
    have hfallback := (hvalue hw').texts none (Option.some_ne_none _).symm
    refine ⟨_, (readArguments_eq_ok_iff hsaid').2 ⟨w', hw', rfl, fun hkind => ?_⟩⟩
    exact (Value.isSome_alike hfallback).trans (hneeds hkind)
  · rintro ⟨read', h'⟩
    obtain ⟨w', hw', -⟩ := (readArguments_eq_ok_iff hsaid').1 h'
    exact (Said.gives_of_assignAll hw').2.consistent_pairs
  · obtain ⟨w', hw', rfl, -⟩ := (readArguments_eq_ok_iff hsaid').1 h'
    exact ⟨rfl, hvalue hw'⟩

/-- A backslash before a carriage return does not continue the line of a literal. -/
theorem quoted?_return (hu : isQuotable u = true) (t : List Char) :
    quoted? '"' (u ++ ('\\' :: '\r' :: '\n' :: t)) = none := by
  rw [quoted?_append_of_isQuotable hu, quoted?, quoted?_newline]
  rfl

/-- Arguments with a string literal, where `eol` stands between two parts of its content. -/
def withLiteral (lead u eol v rest : List Char) : List Char :=
  lead ++ '"' :: (u ++ (eol ++ (v ++ '"' :: rest)))

/-- What a source with other arguments gives at the place of a record.  The arguments say
`said`, with texts that are in the relation `S`. -/
structure FoundAgain (S : String → String → Prop) (settings : ScanSettings) (text : String)
    (r : Record) (site : Site) (args : List Char) (said : Said) : Prop where
  /-- There is a record if the scan comes to the invocation and no code is given two texts. -/
  iff_stands : (∃ r' ∈ recordsOf (scan settings text), r'.location = r.location) ↔
    Stands settings site args ∧ Consistent said.pairs
  stands : ∀ names, ScansTo settings site names → Stands settings site args
  same : ∀ r' ∈ recordsOf (scan settings text), r'.location = r.location →
    r'.identifier = r.identifier ∧ r'.kind = r.kind ∧ r.value.Alike S r'.value

/-- What arguments with other contents give, which are read as the pieces `ps'`. -/
theorem Takes.foundAgain {R : List Char → List Char → Prop} {S : String → String → Prop}
    {text' : String} {args' : List Char} (h : Takes settings text r site args ps)
    (hdefines : settings.defines.Keep R)
    (htexts : ∀ text text', TextAlike R text text' → S text text') (halike : PiecesAlike R ps ps')
    (hextract : extract args' = .ok (ps', width))
    (hsource : withoutMark text' = site.source args') :
    ∃ said, PiecesSay settings.defines ps' r.identifier said ∧
      FoundAgain S settings text' r site args' said := by
  obtain ⟨said, hsaid, hconsistent, hsame⟩ :=
    readArguments_alike hdefines htexts halike h.read_eq
  refine ⟨said, hsaid, ?_⟩
  have hfrom {r' : Record} (hr' : r' ∈ recordsOf (scan settings text'))
      (hlocation : r'.location = r.location) : Stands settings site args' ∧ r'.kind = r.kind ∧
        readArguments settings r.kind ps' = .ok ⟨r'.identifier, r'.value⟩ := by
    obtain ⟨ps', h'⟩ := h.of_location hsource hr' hlocation
    obtain ⟨_, hps'⟩ := h'.extract_eq
    obtain ⟨rfl, -⟩ := Prod.mk.inj (Except.ok.inj (hextract.symm.trans hps'))
    have hkind : r'.kind = r.kind := Option.some.inj (h'.kind_eq.symm.trans h.kind_eq)
    exact ⟨h'.stands, hkind, hkind ▸ h'.read_eq⟩
  refine ⟨⟨?_, ?_⟩, fun names hto => hto.stands fun ps'' width' hextract' => ?_, ?_⟩
  · rintro ⟨r', hr', hlocation⟩
    obtain ⟨hstands, -, hread'⟩ := hfrom hr' hlocation
    exact ⟨hstands, hconsistent.2 ⟨_, hread'⟩⟩
  · rintro ⟨hstands, hpairs⟩
    obtain ⟨⟨identifier, value⟩, hread'⟩ := hconsistent.1 hpairs
    have h' : Takes settings text' { r with identifier, value } site args' ps' :=
      ⟨hsource, h.kind_eq, h.gap, ⟨width, hextract⟩, hread', hstands, h.location_eq⟩
    exact ⟨_, h'.mem, rfl⟩
  · obtain ⟨rfl, -⟩ := Prod.mk.inj (Except.ok.inj (hextract.symm.trans hextract'))
    rw [Argument.mentions_alike halike]
    exact h.mentions_eq hto
  · intro r' hr' hlocation
    obtain ⟨-, hkind, hread'⟩ := hfrom hr' hlocation
    obtain ⟨hidentifier, hvalue⟩ := hsame _ hread'
    exact ⟨hidentifier, hkind, hvalue⟩

/-- Every literal in the arguments of a record may be continued between two of its
characters, in no escape sequence.  The record is found again, with the same bytes unless the
place needs a break.  A carriage return before the newline leaves the literal open. -/
theorem continued_literal (hr : r ∈ recordsOf (scan settings text))
    (hdefines : settings.defines.Closed) :
    (∃ site args ps, Takes settings text r site args ps) ∧
      ∀ site args before u v after,
        Takes settings text r site args (before ++ .literal '"' (u ++ v) :: after) →
        u ≠ [] → v ≠ [] → BetweenEscapes u v →
        ∃ lead rest, ComesToQuote lead before ∧ args = withLiteral lead u [] v rest ∧
          (∀ text', withoutMark text' =
              site.source (withLiteral lead u continuation v rest) →
            ∃ said, PiecesSay settings.defines
                (before ++ .literal '"' (u ++ (continuation ++ v)) :: after) r.identifier said ∧
              FoundAgain (fun text text' => ¬NeedsBreak u v → SameBytes text text') settings text'
                r site (withLiteral lead u continuation v rest) said) ∧
          ∀ text', withoutMark text' =
              site.source (withLiteral lead u ['\\', '\r', '\n'] v rest) →
            (∀ r' ∈ recordsOf (scan settings text'), r'.location ≠ r.location) ∧
              (Stands settings site (withLiteral lead u ['\\', '\r', '\n'] v rest) →
                ∃ e ∈ errorsOf (scan settings text'),
                  e.location = r.location ∧ e.error = .unterminatedString) := by
  refine ⟨exists_takes hr, fun site args before u v after h hu hv hplace => ?_⟩
  obtain ⟨width, hextract⟩ := h.extract_eq
  obtain ⟨lead, rest, hcomes, rfl, hbody, hcontent⟩ := Argument.exists_comesToQuote hextract
  obtain ⟨hfront, hback⟩ := isQuotable_of_append hbody hplace.isClosed
  refine ⟨lead, rest, hcomes, by rw [List.append_assoc]; rfl, ?_, ?_⟩
  · intro text' hsource
    have hcontinued : isQuotable (u ++ (continuation ++ v)) = true :=
      isQuotable_append hfront (isQuotable_append rfl hback)
    obtain ⟨width', hextract'⟩ := hcontent _ hcontinued
    rw [List.append_assoc, List.append_assoc] at hextract'
    have hkeep : settings.defines.Keep (WrappedAt u v) := fun name content hget _ =>
      .same (hdefines name content hget)
    refine h.foundAgain hkeep ?_ (alike_wrapped hextract hu hv hplace) hextract' hsource
    rintro _ _ ⟨contents, contents', hcontents, rfl, rfl⟩ hbreak
    exact sameBytes_of_wrapped (hcontents.imp fun _ _ hwrapped => hwrapped hbreak)
  · intro text' hsource
    have hextract' := hcomes.extract_of_unclosed (quoted?_return hfront (v ++ '"' :: rest))
    refine ⟨fun r' hr' hlocation => ?_, fun hstands => ?_⟩
    · obtain ⟨ps', h'⟩ := h.of_location hsource hr' hlocation
      obtain ⟨_, hps'⟩ := h'.extract_eq
      cases hextract'.symm.trans hps'
    · obtain ⟨e, he, hlocation, herror⟩ :=
        exists_error_of_stands hstands hsource h.kind_eq h.gap hextract'
      exact ⟨e, he, hlocation.trans h.location_eq.symm, herror⟩

theorem continued_literal_sample :
    let settings : ScanSettings := ⟨"a.cpp", ∅⟩
    let value : Value := { fallback := some "é\\x4z" }
    let r : Record := ⟨"A", .reference, value, ⟨"a.cpp", 1, 11⟩⟩
    r ∈ recordsOf (scan settings "#define T SPGM(A, \"é\\x4z\")\n") ∧ settings.defines.Closed ∧
      BetweenEscapes "é\\x4".toList ['z'] ∧ ¬NeedsBreak "é\\x4".toList ['z'] ∧
      (∃ r' ∈ recordsOf (scan settings "#define T SPGM(A, \"é\\x4\\\nz\")\n"),
        r'.location = r.location ∧ r'.identifier = "A" ∧ r'.kind = .reference ∧
          r.value.Alike SameBytes r'.value) ∧
      ∃ e ∈ errorsOf (scan settings "#define T SPGM(A, \"é\\x4\\\r\nz\")\n"),
        e.location = r.location ∧ e.error = .unterminatedString := by
  intro settings value r
  let site : Site := ⟨"#define T ".toList, "SPGM", []⟩
  have hto : ScansTo settings site [] := scansTo_inBody settings
  have htakes : Takes settings "#define T SPGM(A, \"é\\x4z\")\n" r site
      "A, \"é\\x4z\")\n".toList
      ("A, ".toList.map .char ++ .literal '"' ("é\\x4".toList ++ ['z']) :: []) :=
    ⟨by decide, by decide, .nil, ⟨11, eq_ok_of_toOption (by decide +kernel)⟩,
      eq_ok_of_toOption (by decide +kernel), hto.stands fun _ _ _ => mentions_nil _, rfl⟩
  have hdefines : settings.defines.Closed := fun name content h => by cases h
  have hplace : BetweenEscapes "é\\x4".toList ['z'] := ⟨by decide, by rintro _ ⟨⟩; rfl⟩
  have hbreak : ¬NeedsBreak "é\\x4".toList ['z'] := by
    rintro ⟨-, -, -, -, -, c, ⟨⟩, hc⟩
    cases hc
  obtain ⟨-, hwrapped⟩ := continued_literal htakes.mem hdefines
  obtain ⟨lead, rest, -, hargs, hcontinued, hreturn⟩ :=
    hwrapped site _ _ _ _ _ htakes (by decide) (by decide) hplace
  -- The literal has the only quotes of the arguments.
  have hnone : '"' ∉ lead := by
    have hcount := congrArg (List.count '"') hargs
    simp only [withLiteral, List.count_append, List.count_cons_self] at hcount
    have htwo : List.count '"' "A, \"é\\x4z\")\n".toList = 2 := by decide
    exact List.count_eq_zero.1 (by omega)
  obtain rfl : "A, ".toList = lead := by
    have hlead := congrArg (List.takeWhile (· != '"')) hargs
    rwa [withLiteral, takeWhile_append_cons (bne_of_notMem hnone) rfl] at hlead
  obtain rfl : ")\n".toList = rest := List.append_cancel_left
    (show "A, \"é\\x4z\"".toList ++ ")\n".toList = "A, \"é\\x4z\"".toList ++ rest from hargs)
  obtain ⟨said, hsaid, hfound⟩ := hcontinued "#define T SPGM(A, \"é\\x4\\\nz\")\n" (by decide)
  have hread : Argument.readAll settings.defines true ("A, ".toList.map .char ++
      .literal '"' ("é\\x4".toList ++ (continuation ++ ['z'])) :: []) =
      .ok ⟨"A", { fallback := some "é\\x4\\\nz" }⟩ := eq_ok_of_toOption (by decide +kernel)
  obtain ⟨v, hv, -⟩ := map_eq_ok (hsaid.readAll_eq.symm.trans hread)
  obtain ⟨r', hr', hlocation⟩ := hfound.iff_stands.2
    ⟨hfound.stands _ hto, (Said.gives_of_assignAll hv).2.consistent_pairs⟩
  obtain ⟨hidentifier, hkind, hvalue⟩ := hfound.same r' hr' hlocation
  obtain ⟨-, hrefused⟩ := hreturn "#define T SPGM(A, \"é\\x4\\\r\nz\")\n" (by decide)
  refine ⟨htakes.mem, hdefines, hplace, hbreak, ⟨r', hr', hlocation, hidentifier, hkind, ?_⟩,
    hrefused (hto.stands fun _ _ _ => mentions_nil _)⟩
  exact hvalue.imp fun _ _ hsame => hsame hbreak

/-- Behind `°` the continuation keeps the digit `C` from being put apart.  A carriage return
before the newline, and another text for the same code, take the record away, and so does an
invocation around it. -/
theorem continued_literal_changes :
    let texts (source : String) : List (Option String) :=
      (recordsOf (scan ⟨"a.cpp", ∅⟩ source)).map (·.value.fallback)
    let errors (source : String) : List ArgumentError :=
      (errorsOf (scan ⟨"a.cpp", ∅⟩ source)).map (·.error)
    let around (body : String) : String :=
      "#define L(a) SPGM(x, 1'0 FSPGM(title, \"" ++ body ++ "\") \"))\n"
    (texts "SPGM(A, \"°C\");" = [some "°C"] ∧ texts "SPGM(A, \"°\\\nC\");" = [some "°\\\nC"] ∧
      compiled? (initializerOf "°C").toList = some [0xC2, 0xB0, 0x43] ∧
      compiled? (initializerOf "°\\\nC").toList = some [0xC2, 0x0C]) ∧
    (texts "SPGM(A, \"a\\\r\nb\");" = [] ∧
      errors "SPGM(A, \"a\\\r\nb\");" = [.unterminatedString]) ∧
    (texts "SPGM(A, \"xy\", de: \"xy\", de: \"xy\");" = [some "xy"] ∧
      errors "SPGM(A, \"xy\", de: \"xy\", de: \"x\\\ny\");" =
        [.duplicateLocale "de" "xy" "x\\\ny"]) ∧
    texts (around "'ab") = [some "'ab"] ∧ texts (around "'a\\\nb") = [] := by
  decide +kernel

end Scan

end FlashStrings
