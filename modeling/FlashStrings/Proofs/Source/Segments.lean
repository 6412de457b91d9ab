import FlashStrings.Proofs.Invocation.Segments
import FlashStrings.Proofs.Invocation.Texts
import FlashStrings.Proofs.Literal.Escaped
import FlashStrings.Proofs.Source.Boundaries

/-!
# Segments of the texts of a scan

Every text of a record is put together from segments, and each of them is the content of a
closed literal of the source or of a string define (`exists_segments`).

So the characters outside of ASCII that an initialiser keeps are those that stand in escape
sequences of these segments, and an initialiser is ASCII just when there are none
(`isAscii_initializerOf_iff`).  A backslash before such a character is no escape sequence
of the C language, but a literal may have one (`scan_wideEscape`).
-/

namespace FlashStrings

open CLiteral (quoted)

/-- The texts of the string defines are closed. -/
def Defines.Closed (defines : Defines) : Prop :=
  ∀ name content, defines.get? name = some content → IsClosed content.toList

namespace Argument

/-- A literal among collected pieces was closed in the text. -/
theorem closed_of_collect {depth width width' : Nat} {found ps : List Piece} {s : List Char}
    (h : collect depth found width s = .ok (ps, width')) {q : Char} {body : List Char}
    (hmem : .literal q body ∈ ps) :
    .literal q body ∈ found ∨ ∃ front rest, s = front ++ q :: (body ++ q :: rest) ∧
      quoted? q (body ++ q :: rest) = some (body, rest) := by
  -- The text behind a lexeme holds the literal, so the text through the lexeme does.
  have behind {t : List Char} (front : List Char)
      (ht : ∃ front rest, t = front ++ q :: (body ++ q :: rest) ∧
        quoted? q (body ++ q :: rest) = some (body, rest)) :
      ∃ front' rest, front ++ t = front' ++ q :: (body ++ q :: rest) ∧
        quoted? q (body ++ q :: rest) = some (body, rest) := by
    obtain ⟨front', rest, rfl, hbody⟩ := ht
    exact ⟨front ++ front', rest, (List.append_assoc ..).symm, hbody⟩
  have char {c : Char} {found : List Piece} {t : List Char} (front : List Char)
      (ih : .literal q body ∈ Piece.char c :: found ∨ ∃ front rest,
        t = front ++ q :: (body ++ q :: rest) ∧
          quoted? q (body ++ q :: rest) = some (body, rest)) :
      .literal q body ∈ found ∨ ∃ front' rest, front ++ t = front' ++ q :: (body ++ q :: rest) ∧
        quoted? q (body ++ q :: rest) = some (body, rest) :=
    ih.imp (fun hmem => (List.mem_cons.1 hmem).resolve_left fun heq => by cases heq) (behind front)
  fun_induction collect depth found width s with
  | case1 => cases h
  | case2 depth found width s ih => exact char ['('] (ih h)
  | case3 found width s =>
    obtain ⟨rfl, -⟩ := Prod.mk.inj (Except.ok.inj h)
    exact .inl (List.mem_reverse.1 hmem)
  | case4 found width s depth _ ih => exact char [')'] (ih h)
  | case5 depth found width c s _ _ _ content rest hcontent _ ih =>
    have hs : s = content ++ c :: rest := quoted?_eq_some hcontent
    rcases ih h with hmem | hrest
    · rcases List.mem_cons.1 hmem with heq | hmem
      · obtain ⟨rfl, rfl⟩ := Piece.literal.inj heq
        exact .inr ⟨[], rest, by rw [hs]; rfl, hs ▸ hcontent⟩
      · exact .inl hmem
    · have htext : c :: s = c :: (content ++ [c]) ++ rest := by simp [hs]
      rw [htext]
      exact .inr (behind _ hrest)
  | case6 => cases h
  | case7 depth found width c s _ _ _ n hn _ ih =>
    have hchar := char ((c :: s).take n) (ih h)
    rwa [List.take_append_drop] at hchar
  | case8 depth found width c s _ _ _ hn ih => exact char [c] (ih h)

end Argument

namespace Scan

variable {settings : ScanSettings} {text : String} {r : Record} {key : Option String}
  {content : String}

/-- What the texts of a scan are put together from: the contents of literals of the source
and of string defines. -/
inductive Segment (settings : ScanSettings) (text : String) : List Char → Prop where
  | literal {body : List Char} :
    isQuotable body = true → quoted body <:+: text.toList → Segment settings text body
  | define {name stored : String} :
    settings.defines.get? name = some stored → Segment settings text stored.toList

theorem Segment.isClosed {segment : List Char} (h : Segment settings text segment)
    (hdefines : settings.defines.Closed) : IsClosed segment := by
  cases h with
  | literal hbody _ => exact isClosed_of_isQuotable hbody
  | define hname => exact hdefines _ _ hname

/-- The arguments of a record stand in the source. -/
theorem exists_arguments (h : r ∈ recordsOf (scan settings text)) :
    ∃ args ps width, args <:+: text.toList ∧ Argument.extract args = .ok (ps, width) ∧
      Argument.readAll settings.defines true ps = .ok ⟨r.identifier, r.value⟩ := by
  obtain ⟨σ, first, s, hσ, hafter, hfound⟩ := State.exists_of_mem_scan (mem_recordsOf.1 h)
  obtain ⟨kind, name, gap, args, -, hsplit, -, hinvocation⟩ := exists_of_found hfound
  have hsuffix : args <:+: text.toList := by
    have hargs : args <:+ σ.cursor.after :=
      ⟨name.toList ++ (gap ++ ['(']), by rw [hafter, hsplit]; simp⟩
    have hcursor : σ.cursor.after <:+ withoutMark text := by
      have htext : σ.cursor.text = withoutMark text := hσ.text_eq
      exact ⟨σ.cursor.before.reverse, htext⟩
    exact ((hargs.trans hcursor).trans (suffix_withoutMark text)).isInfix
  rw [invocation] at hinvocation
  split at hinvocation
  · cases hinvocation
  next ps width hextract =>
  split at hinvocation
  · cases hinvocation
  split at hinvocation
  · cases hinvocation
  next read hread =>
  obtain rfl := Finding.record.inj (Option.some.inj hinvocation)
  exact ⟨args, ps, width, hsuffix, hextract, (readArguments_eq_ok hread).1⟩

/-- Every text of a record is put together from contents of literals of the source and of
string defines. -/
theorem exists_segments (hr : r ∈ recordsOf (scan settings text))
    (hat : r.value.at? key = some content) :
    ∃ segments, content = String.ofList (concatSegments segments) ∧
      ∀ segment ∈ segments, Segment settings text segment := by
  obtain ⟨args, ps, width, hargs, hextract, hread⟩ := exists_arguments hr
  have hliteral : ∀ body, .literal '"' body ∈ ps → Segment settings text body := by
    intro body hmem
    obtain ⟨front, rest, hsplit, hbody⟩ :=
      (Argument.closed_of_collect hextract hmem).resolve_left List.not_mem_nil
    have hstands : quoted body <:+: args := ⟨front, rest, by rw [hsplit]; simp [quoted]⟩
    exact .literal (isQuotable_of_quoted? hbody) (hstands.trans hargs)
  suffices hoperands : Argument.OperandsHave settings.defines (fun content => ∃ segments,
      content = String.ofList (concatSegments segments) ∧
        ∀ segment ∈ segments, Segment settings text segment) ps from
    (Argument.each_of_readAll hoperands hread).texts key content hat
  intro rest hrest stored hoperand
  rcases Argument.eq_of_operand hoperand with ⟨name, hname⟩ | ⟨contents, rfl, hcontents⟩
  · refine ⟨[stored.toList], ?_, List.forall_mem_singleton.2 (.define hname)⟩
    rw [Argument.concatSegments_singleton, String.ofList_toList]
  · refine ⟨contents, rfl, fun segment hsegment => ?_⟩
    rcases hcontents segment hsegment with hmem | ⟨name, stored, hname, rfl⟩
    · exact hliteral segment (hrest hmem)
    · exact .define hname

/-- The initialiser of a text of a record has the bytes of the text.  Its characters outside
of ASCII are those in the escape sequences of the text, which are those of the segments. -/
theorem isAscii_initializerOf_iff (hr : r ∈ recordsOf (scan settings text))
    (hat : r.value.at? key = some content) :
    CLiteral.value? (initializerOf content).toList = CLiteral.value? (quoted content.toList) ∧
      (initializerOf content).toList.filter (!isAscii ·) = wideEscapes content.toList ∧
      ∃ segments, content = String.ofList (concatSegments segments) ∧
        (∀ segment ∈ segments, Segment settings text segment) ∧
        (settings.defines.Closed →
          wideEscapes content.toList = segments.flatMap wideEscapes ∧
          ((∀ c ∈ (initializerOf content).toList, isAscii c = true) ↔
            ∀ segment ∈ segments, wideEscapes segment = [])) := by
  obtain ⟨segments, rfl, hsegments⟩ := exists_segments hr hat
  rw [initializerOf, String.toList_ofList, String.toList_ofList]
  have hfilter := CLiteral.filter_initializer (concatSegments segments)
  refine ⟨CLiteral.value?_initializer _, hfilter, segments, rfl, hsegments, fun hdefines => ?_⟩
  have hwide : wideEscapes (concatSegments segments) = segments.flatMap wideEscapes :=
    wideEscapes_concatSegments fun segment hsegment =>
      (hsegments segment hsegment).isClosed hdefines
  refine ⟨hwide, ?_⟩
  rw [← List.flatMap_eq_nil_iff, ← hwide, ← hfilter, List.filter_eq_nil_iff]
  exact forall₂_congr fun c _ => by simp

/-- A text with a wide character between two open escapes, and a string define behind it. -/
def wideText : String := "SPGM(A, \"\\x4é1\" V)"

theorem isAscii_initializerOf_sample :
    let settings : ScanSettings := ⟨"a.c", SortedMap.ofList [("V", "ö\\1")]⟩
    let r : Record := { identifier := "A", kind := .reference, location := ⟨"a.c", 1, 1⟩
                        value := { fallback := some "\\x4é1ö\\1" } }
    r ∈ recordsOf (scan settings wideText) ∧
      r.value.at? none = some "\\x4é1ö\\1" ∧
      (initializerOf "\\x4é1ö\\1").toList.filter (!isAscii ·) = [] := by
  intro settings r
  have hr : r ∈ recordsOf (scan settings wideText) := by decide +kernel
  have hat : r.value.at? none = some "\\x4é1ö\\1" := rfl
  obtain ⟨-, hfilter, -⟩ := isAscii_initializerOf_iff hr hat
  exact ⟨hr, hat, hfilter.trans (by decide)⟩

/-- A literal may hold a backslash before a character outside of ASCII, and the initialiser
keeps this character. -/
theorem scan_wideEscape :
    ∃ r ∈ recordsOf (scan ⟨"a.c", ∅⟩ "SPGM(A, \"\\ä\")\n"),
      r.value.at? none = some "\\ä" ∧ initializerOf "\\ä" = "\"\\ä\"" ∧
        ¬∀ c ∈ (initializerOf "\\ä").toList, isAscii c = true := by
  refine ⟨{ identifier := "A", kind := .reference, location := ⟨"a.c", 1, 1⟩
            value := { fallback := some "\\ä" } }, by decide +kernel, rfl, by decide +kernel, ?_⟩
  intro h
  exact absurd (h 'ä' (by decide +kernel)) (by decide)

end Scan

end FlashStrings
