import FlashStrings.Proofs.Invocation.Alone
import FlashStrings.Proofs.Literal.Complete
import FlashStrings.Proofs.Literal.Initializer
import FlashStrings.Proofs.Source.States
import FlashStrings.Proofs.Text.Lossy

/-!
# Literals in the bytes of a source

`Scan.HoldsLiteral` says where a literal without escapes stands in the bytes of a source:
between two quotes, alone as a value among the arguments of an invocation that the scan
takes as a record.  The text in front of the literal is compared with the bytes in front
of it, so a literal of the same content elsewhere does not count.

The record holds the text of these bytes (`Scan.HoldsLiteral.holds`), whatever bytes the
rest of the source has.  A text without escapes stands for its own bytes in C
(`value?_initializerOf_of_plain`).
-/

namespace FlashStrings

/-! ## Texts without escapes -/

/-- A character of a literal that stands for itself. -/
def IsPlain (c : Char) : Prop := c ≠ '"' ∧ c ≠ '\\' ∧ c ≠ '\n'

/-- Plain characters stand for their bytes. -/
theorem CLiteral.run_of_plain {s : List Char} (h : ∀ c ∈ s, IsPlain c) :
    run .inside s = some (.inside, s.flatMap String.utf8EncodeChar) := by
  induction s with
  | nil => rfl
  | cons c s ih =>
    obtain ⟨⟨hquote, hbackslash, hnewline⟩, hs⟩ := List.forall_mem_cons.1 h
    have hstep : step .inside c = some (.inside, String.utf8EncodeChar c) :=
      readPlain_eq_some hquote hbackslash hnewline
    rw [run_cons, hstep, Option.bind_some, ih hs, List.flatMap_cons]
    rfl

/-- The initialiser of a text without escapes has the bytes of the text. -/
theorem value?_initializerOf_of_plain {text : String} (h : ∀ c ∈ text.toList, IsPlain c) :
    CLiteral.value? (initializerOf text).toList = some (Utf8.encode text) := by
  have hholds : CLiteral.Holds text.toList (Utf8.encode text) :=
    ⟨.inside, _, CLiteral.run_of_plain h, trivial, List.append_nil _⟩
  rw [initializerOf, String.toList_ofList, CLiteral.value?_initializer]
  exact CLiteral.value?_quoted hholds

/-- The bytes of a quote, a backslash and a newline. -/
def literalMarks : Bytes := [0x22, 0x5c, 0x0a]

/-- Bytes without these marks are read as plain characters. -/
theorem isPlain_of_mem_decodeLossy {literal : Bytes} (h : ∀ b ∈ literal, b ∉ literalMarks)
    {c : Char} (hc : c ∈ (Utf8.decodeLossy literal).toList) : IsPlain c := by
  have hmark : ∀ b ∈ literalMarks, c ≠ '\uFFFD' → String.utf8EncodeChar c ≠ [b] :=
    fun b hb hne heq => h b (Utf8.subset_of_mem_decodeLossy hne hc (by rw [heq]; simp)) hb
  refine ⟨?_, ?_, ?_⟩
  · rintro rfl
    exact hmark 0x22 (by decide) (by decide) (by decide)
  · rintro rfl
    exact hmark 0x5c (by decide) (by decide) (by decide)
  · rintro rfl
    exact hmark 0x0a (by decide) (by decide) (by decide)

namespace Scan

open Argument (extract collect Alone IsLiteral Lexed)

/-! ## Arguments that are read -/

/-- A scan of the text takes an invocation with the pieces `ps` as the record, and comes
to `rest` in its arguments: behind the text `front`, when it has read the pieces `read`. -/
inductive ComesTo (settings : ScanSettings) (text : String) (r : Record) (ps : List Piece) :
    List Char → List Piece → List Char → Prop where
  | intro {σ τ : State} {name : String} {kind : RecordKind} {gap args rest : List Char}
    {read : List Piece} {depth width : Nat} :
    State.Reaches settings (initial text) σ → macroKind? name = some kind →
    σ.cursor.after = name.toList ++ (gap ++ '(' :: (args ++ rest)) →
    Lexeme.trivia (gap ++ '(' :: (args ++ rest)) = gap.length →
    extract (args ++ rest) = .ok (ps, width) →
    collect 0 [] 0 (args ++ rest) = collect depth read.reverse args.length rest →
    σ.next? settings = some τ → τ.found = .record r :: σ.found →
    ComesTo settings text r ps
      (σ.cursor.before.reverse ++ (name.toList ++ (gap ++ '(' :: args))) read rest

variable {settings : ScanSettings} {text : String} {r : Record} {ps read : List Piece}
  {front rest : List Char}

theorem ComesTo.text_eq (h : ComesTo settings text r ps front read rest) :
    front ++ rest = withoutMark text := by
  cases h with
  | intro hσ _ hafter =>
    have htext : _ = withoutMark text := hσ.text_eq
    rw [← htext, Cursor.text, hafter]
    simp

theorem ComesTo.record_mem (h : ComesTo settings text r ps front read rest) :
    .record r ∈ scan settings text := by
  cases h with
  | intro hσ _ _ _ _ _ hnext hfound =>
    have hτ : State.Reaches settings (initial text) _ := hσ.tail hnext
    exact hτ.found_subset_scan (hfound ▸ List.mem_cons_self)

/-- The invocation was read without an error. -/
theorem ComesTo.readAll_eq (h : ComesTo settings text r ps front read rest) :
    Argument.readAll settings.defines true ps = .ok ⟨r.identifier, r.value⟩ ∧
      r.location.file = settings.file := by
  cases h with
  | @intro σ τ name kind gap args _ _ depth width hσ hkind hafter hgap hextract hcollect hnext
      hfound =>
    obtain ⟨first, s, hcons⟩ := List.exists_cons_of_ne_nil
      (show name.toList ++ (gap ++ '(' :: (args ++ rest)) ≠ [] by simp)
    obtain ⟨-, -, hstep⟩ := step_of_invocation settings σ.cursor σ.body hkind hgap hcons.symm
    rw [State.next?_of_after (hafter.trans hcons), hstep] at hnext
    obtain rfl := Option.some.inj hnext
    have hrecord : (invocation settings σ.cursor σ.body kind name (args ++ rest)).1 =
        some (.record r) := by
      cases hgives : (invocation settings σ.cursor σ.body kind name (args ++ rest)).1 with
      | none => simp [hgives] at hfound
      | some x =>
        rw [hgives] at hfound
        exact congrArg some (List.cons.inj hfound).1
    rw [invocation, hextract] at hrecord
    dsimp only at hrecord
    split at hrecord
    · cases hrecord
    · split at hrecord
      · cases hrecord
      · next hread =>
        obtain rfl := Finding.record.inj (Option.some.inj hrecord)
        exact ⟨(readArguments_eq_ok hread).1, rfl⟩

theorem ComesTo.exists_collect (h : ComesTo settings text r ps front read rest) :
    ∃ depth width width', collect depth read.reverse width rest = .ok (ps, width') := by
  cases h with
  | @intro σ τ name kind gap args _ _ depth width hσ hkind hafter hgap hextract hcollect =>
    exact ⟨depth, args.length, width, hcollect ▸ hextract⟩

/-! ## Literals -/

/-- The source holds a literal of these bytes, without escapes, that stands alone among
the arguments of an invocation: as the fallback, or as the text for a locale code.  The
scan takes the invocation as the record. -/
inductive HoldsLiteral (settings : ScanSettings) (content : Bytes) (r : Record)
    (key : Option String) (literal : Bytes) : Prop where
  | intro {front back : Bytes} {ps read : List Piece} {body rest : List Char} :
    content = front ++ 0x22 :: (literal ++ 0x22 :: back) → (∀ b ∈ literal, b ∉ literalMarks) →
    ComesTo settings (Utf8.decodeLossy content) r ps (withoutMark (Utf8.decodeLossy front))
      read rest →
    Alone ps body read key → HoldsLiteral settings content r key literal

/-- A scan of the source finds the record, and it is located in the source. -/
theorem HoldsLiteral.record_mem {content literal : Bytes} {key : Option String}
    (h : HoldsLiteral settings content r key literal) :
    .record r ∈ scan settings (Utf8.decodeLossy content) ∧ r.location.file = settings.file := by
  cases h with
  | intro _ _ hcomes => exact ⟨hcomes.record_mem, hcomes.readAll_eq.2⟩

/-- The record holds the text of the literal. -/
theorem HoldsLiteral.holds {content literal : Bytes} {key : Option String}
    (h : HoldsLiteral settings content r key literal) :
    r.value.Holds key (Utf8.decodeLossy literal) := by
  cases h with
  | @intro front back ps read body rest hcontent hliteral hcomes halone =>
    have hquote : (0x22 : UInt8).toNat < 0x80 := by decide
    have hrest : rest = '"' :: ((Utf8.decodeLossy literal).toList ++
        '"' :: (Utf8.decodeLossy back).toList) := by
      have htext := hcomes.text_eq
      rw [hcontent, ← String.ofList_toList (s := Utf8.decodeLossy (front ++ _)),
        Utf8.toList_decodeLossy_append front hquote, Utf8.toList_decodeLossy_append literal hquote,
        withoutMark_append _ _ (by decide), String.ofList_toList] at htext
      exact List.append_cancel_left htext
    subst hrest
    obtain ⟨depth, width, width', hcollect⟩ := hcomes.exists_collect
    obtain ⟨rest, hbody⟩ := halone.quoted?_eq hcollect
    have hplain := isQuotable_of_forall fun c hc => isPlain_of_mem_decodeLossy hliteral hc
    obtain ⟨rfl, -⟩ := Prod.mk.inj (Option.some.inj
      ((quoted?_of_isQuotable hplain _).symm.trans hbody))
    have hholds := halone.holds hcomes.readAll_eq.1
    rwa [String.ofList_toList] at hholds

/-! ### One use -/

/-- A source with one use of `Hi`, with this literal. -/
def useOf (literal : Bytes) : Bytes :=
  Utf8.encode "SPGM(Hi, " ++ 0x22 :: (literal ++ 0x22 :: Utf8.encode ")\n")

/-- The pieces in front of the literal. -/
def useFront : List Piece := [.char 'H', .char 'i', .char ',', .char ' ']

theorem alone_useOf (body : List Char) :
    Alone (useFront ++ [.literal '"' body]) body useFront none := by
  have hliteral : IsLiteral (Argument.trim [.char ' ', .literal '"' body]) body := by
    rw [IsLiteral, Argument.unwrap]
    rfl
  have hsplit : Argument.split true 0 (useFront ++ [.literal '"' body]) =
      .ok [[.char 'H', .char 'i'], [.char ' '] ++ .literal '"' body :: []] := rfl
  exact .fallback hsplit rfl rfl hliteral

theorem text_useOf (literal : Bytes) : withoutMark (Utf8.decodeLossy (useOf literal)) =
    "SPGM(Hi, ".toList ++ '"' :: ((Utf8.decodeLossy literal).toList ++ ['"', ')', '\n']) := by
  have hquote : (0x22 : UInt8).toNat < 0x80 := by decide
  rw [useOf, ← String.ofList_toList (s := Utf8.decodeLossy _),
    Utf8.toList_decodeLossy_append _ hquote, Utf8.toList_decodeLossy_append literal hquote,
    withoutMark_append _ _ (by decide)]
  have hfront : withoutMark (String.ofList (Utf8.decodeLossy (Utf8.encode "SPGM(Hi, ")).toList) =
      "SPGM(Hi, ".toList := by decide +kernel
  have hback : (Utf8.decodeLossy (Utf8.encode ")\n")).toList = [')', '\n'] := by decide +kernel
  rw [hfront, hback]
  rfl

/-- A scan that takes the use as a record takes the literal. -/
theorem holdsLiteral_useOf {settings : ScanSettings} {r : Record} {literal : Bytes}
    (hmarks : ∀ b ∈ literal, b ∉ literalMarks)
    (hfound : ((initial (Utf8.decodeLossy (useOf literal))).next? settings).map (·.found) =
      some [.record r]) :
    HoldsLiteral settings (useOf literal) r none literal := by
  obtain ⟨τ, hτ, hfound⟩ := Option.map_eq_some_iff.1 hfound
  let body := (Utf8.decodeLossy literal).toList
  have hbody : isQuotable body = true :=
    isQuotable_of_forall fun c hc => isPlain_of_mem_decodeLossy hmarks hc
  have hargs : ∀ s, collect 0 [] 0 ("Hi, ".toList ++ s) =
      collect 0 useFront.reverse "Hi, ".toList.length s := fun s => by
    have hfront : Lexed 0 "Hi, ".toList useFront 0 := Argument.lexed_map_char 0 (by simp)
    rw [hfront.collect_append, List.append_nil, Nat.zero_add]
  have hextract : extract ("Hi, ".toList ++ '"' :: (body ++ '"' :: [')', '\n'])) =
      .ok (useFront ++ [.literal '"' body], "Hi, ".toList.length + body.length + 2 + 1) := by
    rw [extract, hargs, Argument.collect_literal (.inl rfl)
      (quoted?_of_isQuotable hbody []), collect.eq_def]
    simp
  have hafter : (initial (Utf8.decodeLossy (useOf literal))).cursor.after =
      "SPGM".toList ++ ([] ++ '(' :: ("Hi, ".toList ++ '"' :: (body ++ '"' :: [')', '\n']))) :=
    text_useOf literal
  have hcomes : ComesTo settings (Utf8.decodeLossy (useOf literal)) r
      (useFront ++ [.literal '"' body]) "SPGM(Hi, ".toList useFront
      ('"' :: (body ++ '"' :: [')', '\n'])) :=
    ComesTo.intro .refl (show macroKind? "SPGM" = some .reference by decide) hafter
      (trivia_parenthesis _) hextract (hargs _) hτ hfound
  have hfront : withoutMark (Utf8.decodeLossy (Utf8.encode "SPGM(Hi, ")) =
      "SPGM(Hi, ".toList := by decide +kernel
  rw [← hfront] at hcomes
  exact .intro rfl hmarks hcomes (alone_useOf body)

end Scan

end FlashStrings
