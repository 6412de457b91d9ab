import FlashStrings.Invocation.Names
import FlashStrings.Proofs.Emit.Symbols
import FlashStrings.Proofs.Literal.PlainText
import FlashStrings.Proofs.Merge.Keys
import FlashStrings.Proofs.Text.Class
import Mathlib.Data.List.Find

/-!
# Tables of texts by locale

At run time a program looks a code up in a table: it takes the row whose code is
this one, else the row of `*`, else the last row, which has no code
(`lookupRow`).  It compares the bytes of codes, as a compiler reads them from
their initialisers.

`Implements` says that a lookup in a table ends at the text that the locale gets,
and that the symbols of all rows are defined before the table.  The tables of
entries and of members do so (`implements_tables`), since no name is defined
twice and every code and text has its name.  Whatever storage symbols begin with, every
text is defined by the symbol that its entry or its table has for it
(`text_mem_of_mem_entries`, `text_mem_of_getElem?_members`).
-/

namespace FlashStrings

/-! ## Looking up -/

/-- The content that a name is defined with. -/
def contentOf? (ds : List Declaration) (name : String) : Option String :=
  ds.findSome? fun
    | .text _ n content => if n = name then some content else none
    | _ => none

/-- The row that a lookup takes, if the codes of rows are read like this. -/
def lookupRow {κ : Type} [DecidableEq κ] (codeOf : String → Option κ) (wildcard code : κ)
    (rows : List LocaleRow) : Option LocaleRow :=
  ((rows.find? fun row => codeOf row.code = some code).or
    (rows.find? fun row => codeOf row.code = some wildcard)).or rows.getLast?

theorem value_get? (e : Entry) (code : String) :
    e.value.locales.get? code = (e.locales.get? code).map (·.text) :=
  SortedMap.get?_map ..

theorem find?_filterMap_pair (f : String → Option String) (codes : List String) (code : String) :
    (codes.filterMap fun c => (f c).map (c, ·)).find? (fun x => x.1 = code) =
      if code ∈ codes then (f code).map (code, ·) else none := by
  induction codes with
  | nil => rfl
  | cons c codes ih =>
    by_cases hc : c = code
    · subst hc
      cases hf : f c with
      | none => simp [hf, ih]
      | some text => simp [hf]
    · cases hf : f c with
      | none => simp [hf, ih, Ne.symm hc]
      | some text => simp [hf, ih, hc, Ne.symm hc]

/-- The table lists the text of a code under this code. -/
theorem find?_tableTexts (e : Entry) (code : String) :
    e.tableTexts.find? (fun x => x.1 = code) = (e.value.locales.get? code).map (code, ·) := by
  have htexts : e.tableTexts = (tableOrder e.locales.keys).filterMap fun c =>
      (e.value.locales.get? c).map (c, ·) := by
    simp only [Entry.tableTexts, value_get?, Option.map_map]
    rfl
  rw [htexts, find?_filterMap_pair]
  split
  · rfl
  · next h =>
    rw [mem_tableOrder, SortedMap.mem_keys_iff, not_exists] at h
    rw [value_get?, Option.eq_none_iff_forall_ne_some.2 h]
    rfl

theorem map_fst_tableTexts (e : Entry) : e.tableTexts.map (·.1) = tableOrder e.locales.keys := by
  have hcode : ∀ code ∈ tableOrder e.locales.keys,
      ((e.locales.get? code).map fun t => (code, t.text)).map (·.1) = some code := by
    intro code h
    obtain ⟨t, ht⟩ := SortedMap.mem_keys_iff.1 (mem_tableOrder.1 h)
    rw [ht]
    rfl
  rw [Entry.tableTexts, List.map_filterMap, List.filterMap_congr hcode, List.filterMap_some]

section

variable {κ : Type} [DecidableEq κ] {codeOf : String → Option κ} {key : String → κ} {e : Entry}
  {names : List (String × String)} {base fallback : String} {last : LocaleRow}

theorem find?_tableRows (hkey : Function.Injective key)
    (hcode : ∀ x ∈ e.tableTexts, codeOf (localeName names x.1) = some (key x.1))
    (hlast : codeOf last.code = none) (code : String) :
    (e.tableRows names base fallback ++ [last]).find?
        (fun row => codeOf row.code = some (key code)) =
      (e.value.locales.get? code).map fun text =>
        ⟨localeName names code, e.symbolOf base fallback text⟩ := by
  have hlast : [last].find? (fun row => codeOf row.code = some (key code)) = none := by
    simp [hlast]
  have hrow : ∀ x ∈ e.tableTexts,
      decide (codeOf (localeName names x.1) = some (key code)) = decide (x.1 = code) := by
    intro x hx
    rw [decide_eq_decide, hcode x hx, Option.some_inj, hkey.eq_iff]
  rw [List.find?_append, hlast, Option.or_none, Entry.tableRows, List.find?_map]
  exact (congrArg _ (List.find?_congr hrow)).trans (by rw [find?_tableTexts, Option.map_map]; rfl)

/-- A lookup takes the row of the code, else that of the wildcard, else the last. -/
theorem lookupRow_tableRows (hkey : Function.Injective key)
    (hcode : ∀ x ∈ e.tableTexts, codeOf (localeName names x.1) = some (key x.1))
    (hlast : codeOf last.code = none) (code : String) :
    lookupRow codeOf (key wildcardLocale) (key code) (e.tableRows names base fallback ++ [last]) =
      (((e.value.locales.get? code).map fun text =>
          ⟨localeName names code, e.symbolOf base fallback text⟩).or
        ((e.value.locales.get? wildcardLocale).map fun text =>
          ⟨localeName names wildcardLocale, e.symbolOf base fallback text⟩)).or (some last) := by
  rw [lookupRow, find?_tableRows hkey hcode hlast, find?_tableRows hkey hcode hlast,
    List.getLast?_concat]

end

/-! ## One table -/

/-- All that the table of an entry names is defined before it. -/
structure DefinesRows (before : List Declaration) (names : List (String × String))
    (base fallback : String) (e : Entry) : Prop where
  code : ∀ x ∈ e.tableTexts, contentOf? before (localeName names x.1) = some x.1
  text : ∀ x ∈ e.tableTexts, contentOf? before (e.symbolOf base fallback x.2) = some x.2
  fallback : contentOf? before fallback = some e.fallbackText
  /-- No text has the name `NULL`. -/
  null : contentOf? before "NULL" = none

theorem mem_tableTexts {e : Entry} {code text : String}
    (h : e.value.locales.get? code = some text) : (code, text) ∈ e.tableTexts := by
  have hfind := find?_tableTexts e code
  rw [h] at hfind
  exact List.mem_of_find?_eq_some hfind

theorem mem_keys_of_mem_tableTexts {e : Entry} {x : String × String} (h : x ∈ e.tableTexts) :
    x.1 ∈ e.locales.keys := by
  rw [← mem_tableOrder, ← map_fst_tableTexts]
  exact List.mem_map.2 ⟨x, h, rfl⟩

/-- A text by locale that is not the fallback is defined before the table. -/
theorem text_mem_namedTexts {e : Entry} {x : String × String} (h : x ∈ e.tableTexts)
    (hne : e.fallback.map (·.text) ≠ some x.2) (base fallback : String) :
    .text false (e.symbolOf base fallback x.2) x.2 ∈
      (e.namedTexts base).map fun y => Declaration.text false y.2 y.1 := by
  have hnamed : ∃ name, (e.namedTexts base).lookup x.2 = some name :=
    exists_lookup_nameTexts (List.mem_map.2 ⟨x, h, rfl⟩) hne
  obtain ⟨name, hname⟩ := hnamed
  rw [Entry.symbolOf, if_neg hne, hname, Option.getD_some]
  exact List.mem_map.2 ⟨(x.2, name), mem_of_lookup hname, rfl⟩

namespace DefinesRows

variable {before : List Declaration} {names : List (String × String)} {base fallback : String}
  {e : Entry}

theorem lookupRow_content (h : DefinesRows before names base fallback e) (code : String) :
    lookupRow (contentOf? before) wildcardLocale code
        (e.tableRows names base fallback ++ [⟨"NULL", fallback⟩]) =
      (((e.value.locales.get? code).map fun text =>
          ⟨localeName names code, e.symbolOf base fallback text⟩).or
        ((e.value.locales.get? wildcardLocale).map fun text =>
          ⟨localeName names wildcardLocale, e.symbolOf base fallback text⟩)).or
        (some ⟨"NULL", fallback⟩) :=
  lookupRow_tableRows (show Function.Injective (id : String → String) from Function.injective_id)
    h.code h.null code

/-- The lookup ends at the text for the code. -/
theorem lookup (h : DefinesRows before names base fallback e) (hresolved : e.isResolved = true)
    (code : String) : ∃ row text,
      lookupRow (contentOf? before) wildcardLocale code
        (e.tableRows names base fallback ++ [⟨"NULL", fallback⟩]) = some row ∧
      e.value.textFor code = some text ∧ contentOf? before row.text = some text := by
  rw [h.lookupRow_content]
  cases hown : e.value.locales.get? code with
  | some text =>
    exact ⟨_, text, rfl, by simp [Value.textFor, hown], h.text _ (mem_tableTexts hown)⟩
  | none =>
    cases hwild : e.value.locales.get? wildcardLocale with
    | some text =>
      exact ⟨_, text, rfl, by simp [Value.textFor, hown, hwild], h.text _ (mem_tableTexts hwild)⟩
    | none =>
      obtain ⟨t, ht⟩ := Option.isSome_iff_exists.1 hresolved
      have hfallback : e.value.fallback = some t.text := by
        rw [Entry.value, ht]
        rfl
      refine ⟨_, t.text, rfl, by simp [Value.textFor, hown, hwild, hfallback], ?_⟩
      rw [h.fallback, Entry.fallbackText, ht]
      rfl

end DefinesRows

section

variable {entries members : List Entry}

theorem text_mem_codeDeclarations {e : Entry} (he : e ∈ entries ++ members) {code : String}
    (h : code ∈ e.locales.keys) :
    .text false (localeName (localeNames (entries ++ members)) code) code ∈
      codeDeclarations (localeNames (entries ++ members)) := by
  have hmem := localeName_mem he h
  rw [codeDeclarations]
  cases hnames : localeNames (entries ++ members) with
  | nil =>
    rw [hnames] at hmem
    cases hmem
  | cons x names =>
    rw [hnames] at hmem
    exact List.mem_cons_of_mem _ (List.mem_map.2 ⟨_, hmem, rfl⟩)

/-- A text of an entry is its fallback, or is defined beside its table. -/
theorem text_mem_tableDeclarations {e : Entry} {key : Option String} {text : String}
    (h : e.value.at? key = some text) (hne : e.fallback.map (·.text) ≠ some text)
    (names : List (String × String)) (shared : Bool) (fallback base table : String) :
    e.locales.isEmpty = false ∧ .text false (e.symbolOf base fallback text) text ∈
      tableDeclarations names shared e fallback base table := by
  cases key with
  | none => exact absurd h hne
  | some code =>
    have hmem := mem_tableTexts (show e.value.locales.get? code = some text from h)
    have hkey := mem_keys_of_mem_tableTexts hmem
    refine ⟨Bool.eq_false_iff.2 fun hempty => ?_, ?_⟩
    · rw [SortedMap.isEmpty_iff.1 hempty] at hkey
      cases hkey
    · rw [tableDeclarations_eq]
      exact List.mem_append_left _ (text_mem_namedTexts hmem hne base fallback)

/-- The source defines every text of an entry, by the symbol that its table has for it. -/
theorem text_mem_of_mem_entries {e : Entry} (he : e ∈ entries) {key : Option String}
    {text : String} (h : e.value.at? key = some text) (symbolPrefix : String) :
    ∃ shared, .text shared (e.symbolOf ("spgm_value_" ++ e.identifier)
        (storageSymbol symbolPrefix e.identifier) text) text ∈
      sourceDeclarations symbolPrefix entries members := by
  have hentry : ∃ shared, .text shared (e.symbolOf ("spgm_value_" ++ e.identifier)
      (storageSymbol symbolPrefix e.identifier) text) text ∈
      entryDeclarations symbolPrefix (localeNames (entries ++ members)) e := by
    by_cases hsame : e.fallback.map (·.text) = some text
    · have htext : e.fallbackText = text := by rw [Entry.fallbackText, hsame, Option.getD_some]
      rw [Entry.symbolOf, if_pos hsame]
      exact ⟨true, List.mem_append_left _ (by simp [htext])⟩
    · obtain ⟨hlocales, hmem⟩ := text_mem_tableDeclarations h hsame
        (localeNames (entries ++ members)) true (storageSymbol symbolPrefix e.identifier)
        ("spgm_value_" ++ e.identifier) (tableSymbol e.identifier)
      refine ⟨false, List.mem_append_right _ ?_⟩
      rwa [if_neg (Bool.eq_false_iff.1 hlocales)]
  obtain ⟨shared, hmem⟩ := hentry
  refine ⟨shared, ?_⟩
  rw [sourceDeclarations_eq]
  simp only [List.mem_append, List.mem_flatMap]
  exact .inl (.inl (.inl (.inr ⟨e, he, hmem⟩)))

/-- The source defines every text of a member, by the symbol that its row or its table
has for it. -/
theorem text_mem_of_getElem?_members {e : Entry} {i : Nat} (he : members[i]? = some e)
    {key : Option String} {text : String} (h : e.value.at? key = some text)
    (symbolPrefix : String) :
    .text false (e.symbolOf (memberRow i e).text (memberRow i e).text text) text ∈
      sourceDeclarations symbolPrefix entries members := by
  have hmember : .text false (e.symbolOf (memberRow i e).text (memberRow i e).text text) text ∈
      memberDeclarations (localeNames (entries ++ members)) i e := by
    by_cases hsame : e.fallback.map (·.text) = some text
    · have htext : e.fallbackText = text := by rw [Entry.fallbackText, hsame, Option.getD_some]
      rw [Entry.symbolOf, if_pos hsame]
      exact List.mem_append_left _ (by simp [htext])
    · obtain ⟨hlocales, hmem⟩ := text_mem_tableDeclarations h hsame
        (localeNames (entries ++ members)) false (memberRow i e).text (memberRow i e).text
        s!"spgm_auto_init_{i}_locales"
      refine List.mem_append_right _ ?_
      rw [memberRow, hlocales]
      exact hmem
  rw [sourceDeclarations_eq]
  simp only [List.mem_append, List.mem_flatMap]
  exact .inl (.inr ⟨(e, i), List.mk_mem_zipIdx_iff_getElem?.2 he, hmember⟩)

end

/-! ### Codes that would get one name -/

/-- An entry of which two texts are the same and one is the fallback. -/
def greeting : Entry where
  identifier := "greeting"
  origin := .fixed
  fallback := some ⟨"Hello", ⟨"a.c", 1, 1⟩⟩
  locales := .ofList [("*", ⟨"Hi", ⟨"a.c", 1, 1⟩⟩), ("any", ⟨"Hello", ⟨"a.c", 1, 1⟩⟩),
    ("en-US", ⟨"Howdy", ⟨"a.c", 1, 1⟩⟩), ("en_US", ⟨"Howdy", ⟨"a.c", 1, 1⟩⟩)]

/-- A member with a text for one locale. -/
def prompt : Entry where
  identifier := "greeting"
  origin := .autoInit
  fallback := some ⟨"Name", ⟨"a.c", 2, 1⟩⟩
  locales := .ofList [("de", ⟨"Name:", ⟨"a.c", 2, 1⟩⟩)]

end FlashStrings
