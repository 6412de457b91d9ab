import FlashStrings.Config.Basic
import FlashStrings.Proofs.Config.Define
import FlashStrings.Proofs.Literal.Sequence
import FlashStrings.Proofs.Source.Segments

/-!
# String defines as literals

The text of a string define, between double quotes, is the value of the define as it is
read: without blanks around it, and with plain quotes if its outer quotes have backslashes
(`betweenQuotes?_eq_some_iff`).  Of several string defines with one name, the last counts
(`get?_stringDefines_eq_some_iff`).

Reading a define does not look at its escape sequences.  So the texts of the string defines
are literal contents just when the defines that count are well written
(`Config.isLiterals_of_stringDefines`), and then every text of a scan makes an initialiser
of closed literals.  A define may be accepted and still be no literal
(`Config.isLiterals_examples`).
-/

namespace FlashStrings

open CLiteral (quoted IsLiterals)

variable {defines : List String} {name content : String} {s : List Char}

/-! ## Values of defines -/

/-- The value of a define as it is read. -/
def Define.readValue (value : List Char) : List Char :=
  let value := trim value
  if escapedQuote.isPrefixOf value && escapedQuote.isSuffixOf value then plainQuotes value
  else value

/-- The value of the define is no text between double quotes, or it is a sequence of closed
literals. -/
def WellWritten (text : String) : Prop :=
  ∀ name value, Define.parse? text = some ⟨name, some value⟩ →
    ∀ content, Define.readValue value.toList = quoted content →
      IsLiterals (Define.readValue value.toList)

/-- The text of a string define is what stands between the quotes of its value. -/
theorem betweenQuotes?_eq_some_iff {value content : List Char} :
    betweenQuotes? value = some content ↔ Define.readValue value = quoted content := by
  rw [betweenQuotes?, Define.readValue]
  generalize (if escapedQuote.isPrefixOf (trim value) && escapedQuote.isSuffixOf (trim value)
    then plainQuotes (trim value) else trim value) = text
  constructor
  · intro h
    split at h
    · split at h
      · next s hlast =>
        obtain rfl := Option.some.inj h
        rw [quoted, List.cons_append, List.dropLast_append_getLast? _ hlast]
      · cases h
    · cases h
  · rintro rfl
    show (if (content ++ ['"']).getLast? = some '"' then some (content ++ ['"']).dropLast
      else none) = some content
    rw [List.getLast?_concat, if_pos rfl, List.dropLast_concat]

theorem stringDefine?_eq_some_iff {text : String} :
    stringDefine? text = some (name, content) ↔
      ∃ value, Define.parse? text = some ⟨name, some value⟩ ∧
        Define.readValue value.toList = quoted content.toList := by
  rw [stringDefine?]
  constructor
  · intro h
    obtain ⟨⟨name', value'⟩, hdefine, h⟩ := Option.bind_eq_some_iff.1 h
    obtain ⟨value, hvalue, h⟩ := Option.bind_eq_some_iff.1 h
    obtain ⟨inner, hinner, h⟩ := Option.bind_eq_some_iff.1 h
    obtain ⟨rfl, rfl⟩ := Prod.mk.inj (Option.some.inj h)
    obtain rfl : value' = some value := hvalue
    refine ⟨value, hdefine, ?_⟩
    rw [String.toList_ofList]
    exact betweenQuotes?_eq_some_iff.1 hinner
  · rintro ⟨value, hdefine, hread⟩
    rw [hdefine]
    show (betweenQuotes? value.toList).bind _ = _
    rw [betweenQuotes?_eq_some_iff.2 hread, Option.bind_some, String.ofList_toList]
    rfl

/-- A define is well written just when its text is a literal content, if it has one. -/
theorem wellWritten_iff {text : String} :
    WellWritten text ↔ ∀ name content, stringDefine? text = some (name, content) →
      IsLiterals (quoted content.toList) := by
  constructor
  · intro h name content hdefine
    obtain ⟨value, hparse, hread⟩ := stringDefine?_eq_some_iff.1 hdefine
    rw [← hread]
    exact h name value hparse _ hread
  · intro h name value hparse content hread
    rw [hread]
    have hdefine : stringDefine? text = some (name, String.ofList content) :=
      stringDefine?_eq_some_iff.2 ⟨value, hparse, by rw [String.toList_ofList, hread]⟩
    simpa using h name _ hdefine

/-! ## Lists of defines -/

/-- No string define in the list has this name. -/
def Unnamed (name : String) (defines : List String) : Prop :=
  ∀ text ∈ defines, ∀ content, stringDefine? text ≠ some (name, content)

theorem get?_foldl_filterMap {m : Defines} :
    ((defines.filterMap stringDefine?).foldl (fun m e => m.insert e.1 e.2) m).get? name =
        some content ↔
      m.get? name = some content ∧ Unnamed name defines ∨
        ∃ front text back, defines = front ++ text :: back ∧
          stringDefine? text = some (name, content) ∧ Unnamed name back := by
  induction defines generalizing m with
  | nil =>
    refine ⟨fun h => .inl ⟨h, nofun⟩, ?_⟩
    rintro (⟨h, -⟩ | ⟨front, text, back, hnil, -⟩)
    · exact h
    · simp at hnil
  | cons text defines ih =>
    -- The first define counts, or the others decide.
    have hsplit : (∃ front text' back, text :: defines = front ++ text' :: back ∧
        stringDefine? text' = some (name, content) ∧ Unnamed name back) ↔
        stringDefine? text = some (name, content) ∧ Unnamed name defines ∨
          ∃ front text' back, defines = front ++ text' :: back ∧
            stringDefine? text' = some (name, content) ∧ Unnamed name back := by
      constructor
      · rintro ⟨front, text', back, heq, htext, hback⟩
        cases front with
        | nil =>
          obtain ⟨rfl, rfl⟩ := List.cons.inj heq
          exact .inl ⟨htext, hback⟩
        | cons first front =>
          obtain ⟨-, rfl⟩ := List.cons.inj heq
          exact .inr ⟨front, text', back, rfl, htext, hback⟩
      · rintro (⟨htext, hback⟩ | ⟨front, text', back, rfl, htext, hback⟩)
        · exact ⟨[], text, defines, rfl, htext, hback⟩
        · exact ⟨text :: front, text', back, rfl, htext, hback⟩
    have hunnamed : Unnamed name (text :: defines) ↔
        (∀ content, stringDefine? text ≠ some (name, content)) ∧ Unnamed name defines :=
      List.forall_mem_cons
    rw [hsplit, hunnamed]
    cases htext : stringDefine? text with
    | none => simp [htext, ih]
    | some e =>
      rw [List.filterMap_cons_some htext, List.foldl_cons, ih, SortedMap.get?_insert]
      obtain ⟨name', content'⟩ := e
      by_cases hname : name = name'
      · subst hname
        simp
      · simp [hname, Ne.symm hname]

/-- The last string define of a name counts. -/
theorem get?_stringDefines_eq_some_iff :
    (stringDefines defines).get? name = some content ↔
      ∃ front text back, defines = front ++ text :: back ∧
        stringDefine? text = some (name, content) ∧ Unnamed name back := by
  rw [stringDefines, SortedMap.ofList, get?_foldl_filterMap]
  refine or_iff_right fun h => ?_
  cases h.1

/-! ## Settings -/

namespace Config

variable {file text : String} {r : Record} {key : Option String}

/-- The texts of the string defines are literal contents just when the defines that count
are well written.  Then every text of a scan makes an initialiser of closed literals, which
has a value if the literals of the text have. -/
theorem isLiterals_of_stringDefines (c : Config) (more : List String) :
    ((∀ name content, (c.stringDefines more).get? name = some content →
        IsLiterals (quoted content.toList)) ↔
      ∀ front text back, c.defines ++ more = front ++ text :: back →
        (∀ name content, stringDefine? text = some (name, content) → Unnamed name back) →
        WellWritten text) ∧
    ((∀ name content, (c.stringDefines more).get? name = some content →
        IsLiterals (quoted content.toList)) →
      ∀ file text r key content, r ∈ recordsOf (scan ⟨file, c.stringDefines more⟩ text) →
        r.value.at? key = some content →
        IsLiterals (initializerOf content).toList ∧
          ∃ segments, content = String.ofList (concatSegments segments) ∧
            (∀ s ∈ segments, Scan.Segment ⟨file, c.stringDefines more⟩ text s) ∧
            ((∀ s ∈ segments, (CLiteral.value? (quoted s)).isSome) →
              (CLiteral.value? (initializerOf content).toList).isSome)) := by
  rw [stringDefines]
  refine ⟨⟨fun h front text back hsplit hcounts => ?_, fun h name content hget => ?_⟩, ?_⟩
  · rw [wellWritten_iff]
    intro name content hdefine
    exact h name content (get?_stringDefines_eq_some_iff.2
      ⟨front, text, back, hsplit, hdefine, hcounts name content hdefine⟩)
  · obtain ⟨front, text, back, hsplit, hdefine, hback⟩ := get?_stringDefines_eq_some_iff.1 hget
    refine wellWritten_iff.1 (h front text back hsplit fun name' content' hdefine' => ?_) name
      content hdefine
    obtain ⟨rfl, -⟩ := Prod.mk.inj (Option.some.inj (hdefine.symm.trans hdefine'))
    exact hback
  · intro hdefines file text r key content hr hat
    obtain ⟨segments, rfl, hsegments⟩ := Scan.exists_segments hr hat
    rw [initializerOf, String.toList_ofList, String.toList_ofList]
    have hfits : ∀ s ∈ segments, CLiteral.Fits s := by
      intro s hs
      cases hsegments s hs with
      | literal hbody _ => exact CLiteral.fits_of_isQuotable hbody
      | define hname => exact CLiteral.isLiterals_quoted_iff.1 (hdefines _ _ hname)
    refine ⟨?_, segments, rfl, hsegments, CLiteral.isSome_value?_concatSegments⟩
    exact CLiteral.isLiterals_initializer.2
      (CLiteral.isLiterals_quoted_iff.2 (CLiteral.fits_concatSegments hfits))

/-- The string defines of these settings, one of them set anew, are all literals, and so is
the initialiser of a record that puts two of them together. -/
theorem isLiterals_of_stringDefines_sample :
    let c : Config := { defines := ["PRODUCT=\"Widget\"", "DEBUG", "VENDOR=\\\"Acme\\\""] }
    let defines := c.stringDefines ["PRODUCT=\"\\x4\" \"1\""]
    (∀ name content, defines.get? name = some content → IsLiterals (quoted content.toList)) ∧
      ∃ r ∈ recordsOf (scan ⟨"a.c", defines⟩ "SPGM(A, VENDOR \" \" PRODUCT, de: PRODUCT)\n"),
        r.value.at? none = some "Acme \\x4\" \"1" ∧
          IsLiterals (initializerOf "Acme \\x4\" \"1").toList := by
  intro c defines
  have hdefines : ∀ name content, defines.get? name = some content →
      IsLiterals (quoted content.toList) := by
    refine (isLiterals_of_stringDefines c _).1.2 fun front text back hsplit _ => ?_
    have hall : ∀ text ∈ c.defines ++ ["PRODUCT=\"\\x4\" \"1\""], ∀ e,
        stringDefine? text = some e → IsLiterals (quoted e.2.toList) := by decide +kernel
    refine wellWritten_iff.2 fun name content hdefine => ?_
    exact hall text (by rw [hsplit]; simp) (name, content) hdefine
  have hrecord : ∃ r ∈ recordsOf
      (scan ⟨"a.c", defines⟩ "SPGM(A, VENDOR \" \" PRODUCT, de: PRODUCT)\n"),
      r.value.at? none = some "Acme \\x4\" \"1" := by decide +kernel
  obtain ⟨r, hr, hat⟩ := hrecord
  exact ⟨hdefines, r, hr, hat,
    ((isLiterals_of_stringDefines c _).2 hdefines _ _ r none _ hr hat).1⟩

/-- A define whose last quote stands behind a backslash. -/
def openDefine : String := "V=\"a\\\""

/-- A define whose outer quotes have backslashes, and the quotes of its text as well. -/
def nestedDefine : String := "W=\\\"say \\\\\\\"hi\\\\\\\"\\\""

/-- Both defines are accepted, and neither gives the content of a literal.  A record that
uses the first one makes an open initialiser. -/
theorem isLiterals_examples :
    let c : Config := { defines := [openDefine, nestedDefine] }
    (∀ text ∈ c.defines, (Define.parse? text).isSome = true) ∧
      (c.stringDefines []).get? "V" = some "a\\" ∧ ¬IsLiterals (quoted "a\\".toList) ∧
      (c.stringDefines []).get? "W" = some "say \\\\\"hi\\\\\"" ∧
      ¬IsLiterals (quoted "say \\\\\"hi\\\\\"".toList) ∧
      (recordsOf (scan ⟨"a.c", c.stringDefines []⟩ "SPGM(A, V)\n")).map (·.value) =
        [{ fallback := some "a\\" }] ∧
      ¬IsLiterals (initializerOf "a\\").toList := by
  refine ⟨by decide, by decide +kernel, by decide, by decide +kernel, by decide, by decide +kernel,
    by decide +kernel⟩

end Config

end FlashStrings
