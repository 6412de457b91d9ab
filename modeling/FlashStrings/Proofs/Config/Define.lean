import FlashStrings.Config.Define
import FlashStrings.Proofs.SortedMap
import FlashStrings.Proofs.Text.Trim

/-!
# String defines that were read

The name of a string define is a C name, and its text is a part of one line of
the define.  So neither holds what ends it where defines are listed line by line
(`readable_stringDefines`).
-/

namespace FlashStrings

/-- The line of a string define in the text of the fingerprint can be read back. -/
def Defines.Readable (defines : Defines) : Prop :=
  ∀ e ∈ defines.entries, '=' ∉ e.1.toList ∧ '\n' ∉ e.2.toList

theorem SortedMap.mem_of_mem_foldl_insert {α : Type} {e : String × α} {l : List (String × α)}
    {m : TextMap α} (h : e ∈ (l.foldl (fun m e => m.insert e.1 e.2) m).entries) :
    e ∈ m.entries ∨ e ∈ l := by
  induction l generalizing m with
  | nil => exact .inl h
  | cons e' l ih =>
    rcases ih h with h | h
    · rcases SortedMap.mem_place h with h | h
      · exact .inr (h ▸ List.mem_cons_self)
      · exact .inl h
    · exact .inr (List.mem_cons_of_mem _ h)

theorem SortedMap.mem_of_mem_ofList {α : Type} {e : String × α} {l : List (String × α)}
    (h : e ∈ (SortedMap.ofList l).entries) : e ∈ l := by
  rcases mem_of_mem_foldl_insert h with h | h
  · cases h
  · exact h

/-- The name of a define is a C name and its value stands in one line. -/
theorem Define.of_parse? {text : String} {define : Define} (h : parse? text = some define) :
    define.name.toList.all isNameChar = true ∧
      ∀ value, define.value = some value → '\n' ∉ value.toList := by
  rw [parse?] at h
  have hname : (text.toList.takeWhile isNameChar).all isNameChar = true := List.all_takeWhile
  split at h
  · split at h
    · obtain rfl := Option.some.inj h
      exact ⟨by rwa [String.toList_ofList], by rintro _ ⟨⟩⟩
    · split at h
      · cases h
      · next hn =>
        obtain rfl := Option.some.inj h
        refine ⟨by rwa [String.toList_ofList], ?_⟩
        intro value hv
        obtain rfl := Option.some.inj hv
        simpa using hn
    · cases h
  · cases h

theorem mem_of_mem_plainQuotes {s : List Char} {c : Char} (h : c ∈ plainQuotes s) : c ∈ s := by
  fun_induction plainQuotes s with
  | case1 s ih =>
    rcases List.mem_cons.1 h with h | h
    · simp [h]
    · simp [ih h]
  | case2 d s _ ih =>
    rcases List.mem_cons.1 h with h | h
    · simp [h]
    · simp [ih h]
  | case3 => cases h

/-- The text between the quotes of a value is a part of the value. -/
theorem mem_of_betweenQuotes? {value content : List Char} {c : Char}
    (h : betweenQuotes? value = some content) (hc : c ∈ content) : c ∈ value := by
  rw [betweenQuotes?] at h
  have hmem : ∀ s : List Char, s = (if escapedQuote.isPrefixOf (trim value) &&
      escapedQuote.isSuffixOf (trim value) then plainQuotes (trim value) else trim value) →
      c ∈ s → c ∈ value := by
    rintro s rfl hs
    split at hs
    · exact mem_of_mem_trimWhile (mem_of_mem_plainQuotes hs)
    · exact mem_of_mem_trimWhile hs
  split at h
  · next s hs =>
    split at h
    · obtain rfl := Option.some.inj h
      refine hmem _ hs.symm (List.mem_cons_of_mem _ (List.dropLast_subset s hc))
    · cases h
  · cases h

theorem readable_of_stringDefine? {text : String} {e : String × String}
    (h : stringDefine? text = some e) : '=' ∉ e.1.toList ∧ '\n' ∉ e.2.toList := by
  rw [stringDefine?] at h
  obtain ⟨define, hd, h⟩ := Option.bind_eq_some_iff.1 h
  obtain ⟨value, hv, h⟩ := Option.bind_eq_some_iff.1 h
  obtain ⟨content, hc, h⟩ := Option.bind_eq_some_iff.1 h
  obtain rfl := Option.some.inj h
  obtain ⟨hname, hvalue⟩ := Define.of_parse? hd
  refine ⟨fun heq => ?_, fun hnl => ?_⟩
  · have := List.all_eq_true.1 hname _ heq
    simp [isNameChar] at this
  · rw [String.toList_ofList] at hnl
    exact hvalue value hv (mem_of_betweenQuotes? hc hnl)

theorem readable_stringDefines (defines : List String) : (stringDefines defines).Readable := by
  intro e he
  obtain ⟨text, -, ht⟩ := List.mem_filterMap.1 (SortedMap.mem_of_mem_ofList he)
  exact readable_of_stringDefine? ht

end FlashStrings
