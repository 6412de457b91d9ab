import FlashStrings.Emit.Files
import FlashStrings.Proofs.SortedMap
import FlashStrings.Proofs.Text.Marked
import Mathlib.Data.List.Nodup
import Mathlib.Data.List.Perm.Subperm

/-!
# Codes and their names

Tables list codes in their order, the wildcard last (`pairwise_tableOrder`).  A
new name is none of those that are used (`freshName_spec`), since there are
more candidates than used names.  So all codes have names of their own
(`nodup_nameCodes`), and every code that an entry uses has one
(`localeName_mem`).

The names of texts are numbered (`map_snd_nameTexts`), and every text of an entry
that is not its fallback has one (`exists_lookup_nameTexts`).
-/

namespace FlashStrings

/-! ## The order of codes -/

theorem perm_tableOrder (codes : List String) : (tableOrder codes).Perm codes := by
  have h := List.filter_append_perm (fun code : String => decide (code ≠ wildcardLocale)) codes
  simpa [tableOrder] using h

theorem mem_tableOrder {codes : List String} {code : String} :
    code ∈ tableOrder codes ↔ code ∈ codes := (perm_tableOrder codes).mem_iff

theorem mem_usedCodes {entries : List Entry} {e : Entry} (he : e ∈ entries) {code : String}
    (h : code ∈ e.locales.keys) : code ∈ usedCodes entries := by
  refine mem_tableOrder.2 (SortedMap.mem_keys_ofList ?_)
  rw [List.map_map]
  exact List.mem_map.2 ⟨code, List.mem_flatMap.2 ⟨e, he, h⟩, rfl⟩

/-! ## New names -/

/-- A name with a number. -/
def numbered (base : String) (n : Nat) : String := s!"{base}_{n}"

theorem toList_numbered (base : String) (n : Nat) :
    (numbered base n).toList = base.toList ++ '_' :: Nat.toDigits 10 n := by
  simp [numbered, toString]

theorem numbered_append (start base : String) (n : Nat) :
    numbered (start ++ base) n = start ++ numbered base n := by
  refine String.toList_inj.1 ?_
  simp [toList_numbered]

theorem toDigits_injective {m n : Nat} (h : Nat.toDigits 10 m = Nat.toDigits 10 n) : m = n := by
  rw [← @Nat.ofDigitChars_ten_toDigits m, h, Nat.ofDigitChars_ten_toDigits]

theorem numbered_inj {base base' : String} {m n : Nat} (h : numbered base m = numbered base' n) :
    base = base' ∧ m = n := by
  -- the last underline is the one before the number
  have h := congrArg List.reverse (congrArg String.toList h)
  simp only [toList_numbered, List.reverse_append, List.reverse_cons, List.append_assoc,
    List.singleton_append] at h
  have hfree : ∀ n, '_' ∉ (Nat.toDigits 10 n).reverse := fun n hn =>
    Nat.underscore_not_in_toDigits (List.mem_reverse.1 hn)
  obtain ⟨hdigits, hbase⟩ :=
    append_inj_of_marked (hfree m) (hfree n) (marked_cons _ _) (marked_cons _ _) h
  rw [List.cons_inj_right, List.reverse_inj, String.toList_inj] at hbase
  exact ⟨hbase, toDigits_injective (List.reverse_inj.1 hdigits)⟩

theorem numbered_ne (base : String) (n : Nat) : numbered base n ≠ base := by
  intro h
  have h := congrArg String.toList h
  rw [toList_numbered] at h
  simp at h

/-- The names that are tried, in this order. -/
def candidateNames (count : Nat) (base : String) : List String :=
  base :: (List.range count).map fun i => numbered base (i + 2)

theorem nodup_candidateNames (count : Nat) (base : String) :
    (candidateNames count base).Nodup := by
  refine List.nodup_cons.2 ⟨fun h => ?_, ?_⟩
  · obtain ⟨i, -, hi⟩ := List.mem_map.1 h
    exact numbered_ne base _ hi
  · refine List.Nodup.map (fun i j h => ?_) List.nodup_range
    exact Nat.add_right_cancel (numbered_inj h).2

theorem exists_append_of_mem_candidateNames {count : Nat} {base name : String}
    (h : name ∈ candidateNames count base) : ∃ rest, name = base ++ rest := by
  rcases List.mem_cons.1 h with rfl | h
  · exact ⟨"", by simp⟩
  · obtain ⟨i, -, rfl⟩ := List.mem_map.1 h
    exact ⟨_, String.append_assoc ..⟩

/-- There are more candidates than used names. -/
theorem exists_candidate (used : List String) (base : String) :
    ∃ name ∈ candidateNames (used.length + 1) base, name ∉ used := by
  by_contra hall
  have hsub : candidateNames (used.length + 1) base ⊆ used := fun name hname =>
    by_contra fun hnot => hall ⟨name, hname, hnot⟩
  have hle := (List.subperm_of_subset (nodup_candidateNames _ base) hsub).length_le
  simp only [candidateNames, List.length_cons, List.length_map, List.length_range] at hle
  omega

theorem freshName_spec (used : List String) (base : String) :
    freshName used base ∈ candidateNames (used.length + 1) base ∧ freshName used base ∉ used := by
  have heq : freshName used base =
      ((candidateNames (used.length + 1) base).find? fun name => !used.contains name).getD base :=
    rfl
  cases hfind : (candidateNames (used.length + 1) base).find? fun name => !used.contains name with
  | none =>
    obtain ⟨name, hname, hnot⟩ := exists_candidate used base
    exact absurd (List.find?_eq_none.1 hfind name hname) (by simpa using hnot)
  | some name =>
    rw [heq, hfind, Option.getD_some]
    exact ⟨List.mem_of_find?_eq_some hfind, by simpa using List.find?_some hfind⟩

example : freshName ["spgm_locale_en"] "spgm_locale_en" = "spgm_locale_en_2" := by decide +kernel

/-! ## Names of codes -/

theorem map_fst_nameCodes (used codes : List String) :
    (nameCodes used codes).map (·.1) = codes := by
  induction codes generalizing used with
  | nil => rfl
  | cons code codes ih => rw [nameCodes, List.map_cons, ih]

theorem notMem_of_mem_nameCodes {used codes : List String} {x : String × String}
    (h : x ∈ nameCodes used codes) : x.2 ∉ used := by
  induction codes generalizing used with
  | nil => cases h
  | cons code codes ih =>
    rcases List.mem_cons.1 h with rfl | h
    · exact (freshName_spec ..).2
    · exact fun hmem => ih h (List.mem_cons_of_mem _ hmem)

/-- No two codes have the same name. -/
theorem nodup_nameCodes (used codes : List String) :
    ((nameCodes used codes).map (·.2)).Nodup := by
  induction codes generalizing used with
  | nil => exact .nil
  | cons code codes ih =>
    refine List.nodup_cons.2 ⟨fun h => ?_, ih _⟩
    obtain ⟨x, hx, heq⟩ := List.mem_map.1 h
    exact notMem_of_mem_nameCodes hx (heq ▸ List.mem_cons_self)

/-- The names of codes begin alike. -/
theorem exists_map_snd_nameCodes (used codes : List String) :
    ∃ rests : List String,
      (nameCodes used codes).map (·.2) = rests.map ("spgm_locale_" ++ ·) := by
  induction codes generalizing used with
  | nil => exact ⟨[], rfl⟩
  | cons code codes ih =>
    let name := freshName used ("spgm_locale_" ++ codeName code)
    obtain ⟨rest, hrest⟩ := exists_append_of_mem_candidateNames
      (freshName_spec used ("spgm_locale_" ++ codeName code)).1
    obtain ⟨rests, hrests⟩ := ih (name :: used)
    refine ⟨(codeName code ++ rest) :: rests, ?_⟩
    rw [nameCodes, List.map_cons, List.map_cons, hrests, hrest, String.append_assoc]

theorem mem_of_lookup {l : List (String × String)} {key value : String}
    (h : l.lookup key = some value) : (key, value) ∈ l := by
  obtain ⟨l₁, l₂, rfl, -⟩ := List.lookup_eq_some_iff.1 h
  simp

theorem exists_lookup_of_mem {l : List (String × String)} {key : String}
    (h : key ∈ l.map (·.1)) : ∃ value, l.lookup key = some value := by
  obtain ⟨x, hx, rfl⟩ := List.mem_map.1 h
  exact Option.isSome_iff_exists.1 (List.lookup_isSome_iff.2 ⟨x, hx, by simp⟩)

/-- Every code of an entry has its name. -/
theorem localeName_mem {entries : List Entry} {e : Entry} (he : e ∈ entries) {code : String}
    (h : code ∈ e.locales.keys) :
    (code, localeName (localeNames entries) code) ∈ localeNames entries := by
  have hmem : code ∈ (localeNames entries).map (·.1) := by
    rw [localeNames, map_fst_nameCodes]
    exact mem_usedCodes he h
  obtain ⟨name, hname⟩ := exists_lookup_of_mem hmem
  rw [localeName, hname, Option.getD_some]
  exact mem_of_lookup hname

/-! ## Names of texts -/

variable {base : String} {fallback : Option String} {named : List (String × String)}

/-- The names of texts are numbered from one. -/
theorem map_snd_nameTexts
    (h : named.map (·.2) = (List.range named.length).map fun i => numbered base (i + 1))
    (texts : List String) :
    (nameTexts base fallback named texts).map (·.2) =
      (List.range (nameTexts base fallback named texts).length).map fun i =>
        numbered base (i + 1) := by
  induction texts generalizing named with
  | nil => exact h
  | cons text texts ih =>
    rw [nameTexts]
    split
    · exact ih h
    · refine ih ?_
      rw [List.map_append, h, List.length_append, List.length_singleton, List.range_succ,
        List.map_append]
      rfl

theorem prefix_nameTexts (base : String) (fallback : Option String)
    (named : List (String × String)) (texts : List String) :
    named <+: nameTexts base fallback named texts := by
  induction texts generalizing named with
  | nil => exact List.prefix_rfl
  | cons text texts ih =>
    rw [nameTexts]
    split
    · exact ih named
    · exact (List.prefix_append ..).trans (ih _)

/-- Every text that is not the fallback has a name. -/
theorem exists_lookup_nameTexts {texts : List String} {text : String} (h : text ∈ texts)
    (hne : fallback ≠ some text) :
    ∃ name, (nameTexts base fallback named texts).lookup text = some name := by
  induction texts generalizing named with
  | nil => cases h
  | cons t texts ih =>
    rw [nameTexts]
    rcases List.mem_cons.1 h with rfl | h
    · split
      · next hknown =>
        have hsome : (named.lookup text).isSome = true := by simpa [hne] using hknown
        obtain ⟨name, hname⟩ := Option.isSome_iff_exists.1 hsome
        exact ⟨name, (prefix_nameTexts ..).lookup_eq_some hname⟩
      · have hself : ((named ++ [(text, numbered base (named.length + 1))]).lookup text).isSome :=
          List.lookup_isSome_iff.2 ⟨(text, _), List.mem_append_right _ List.mem_cons_self, by simp⟩
        obtain ⟨name, hname⟩ := Option.isSome_iff_exists.1 hself
        exact ⟨name, (prefix_nameTexts ..).lookup_eq_some hname⟩
    · split
      · exact ih h
      · exact ih h

end FlashStrings
