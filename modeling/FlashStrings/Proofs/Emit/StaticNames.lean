import FlashStrings.Proofs.Emit.Header

/-!
# Names that the source keeps

Codes, single texts and the parts of members have names that only the source knows
(`staticNames`).  No two of them are the same (`nodup_staticNames`).  What the source
defines besides is what the header declares (`filterMap_sharedName?_sourceDeclarations`),
so a static name has a second definition only where a storage symbol reads like it
(`count_definedNames`).

The name of a code is where a search ends that tries the base first and then the base
with the numbers from two on, until no earlier code has the name (`Searches`).  The
search always ends, at the name that `freshName` gives (`searches_iff`).
-/

namespace FlashStrings

/-! ## The search for a name -/

/-- A search for a name that is not used, at a candidate: when it is used, the base
with the number is next.  The last argument is the name that is found. -/
inductive Searches (used : List String) (base : String) : String → Nat → String → Prop where
  | free {name : String} {n : Nat} : name ∉ used → Searches used base name n name
  | taken {name found : String} {n : Nat} : name ∈ used →
    Searches used base (numbered base n) (n + 1) found → Searches used base name n found

variable {used : List String} {base : String}

/-- The search finds one name only. -/
theorem Searches.unique {name found found' : String} {n : Nat}
    (h : Searches used base name n found) (h' : Searches used base name n found') :
    found = found' := by
  induction h with
  | free hfree =>
    cases h' with
    | free => rfl
    | taken hused => exact absurd hused hfree
  | taken hused _ ih =>
    cases h' with
    | free hfree => exact absurd hused hfree
    | taken _ h' => exact ih h'

/-- The search ends at the first candidate that is free, if there is one. -/
theorem searches_of_find? {name found : String} {n : Nat} (count : Nat)
    (h : (name :: (List.range count).map fun i => numbered base (n + i)).find?
      (fun name => !used.contains name) = some found) :
    Searches used base name n found := by
  induction count generalizing name n with
  | zero =>
    obtain ⟨hfree, -⟩ := List.find?_eq_some_iff_append.1 h
    obtain rfl := List.mem_singleton.1 (List.mem_of_find?_eq_some h)
    exact .free (by simpa using hfree)
  | succ count ih =>
    by_cases hused : name ∈ used
    · rw [List.find?_cons_of_neg (by simpa using hused), List.range_succ_eq_map, List.map_cons,
        List.map_map, Nat.add_zero] at h
      refine .taken hused (ih ?_)
      rw [← h]
      congr 2
      refine List.map_congr_left fun i _ => ?_
      rw [Function.comp_apply, Nat.succ_eq_add_one, Nat.add_assoc, Nat.add_comm 1]
    · rw [List.find?_cons_of_pos (by simpa using hused)] at h
      obtain rfl := Option.some.inj h
      exact .free hused

/-- The search ends, at the fresh name. -/
theorem searches_iff {found : String} :
    Searches used base base 2 found ↔ found = freshName used base := by
  have hends : Searches used base base 2 (freshName used base) := by
    obtain ⟨name, hname, hfree⟩ := exists_candidate used base
    cases hfind : (candidateNames (used.length + 1) base).find? fun name => !used.contains name with
    | none => exact absurd (List.find?_eq_none.1 hfind name hname) (by simpa using hfree)
    | some found =>
      have hfresh : freshName used base = found := by
        show ((candidateNames (used.length + 1) base).find? _).getD base = found
        rw [hfind, Option.getD_some]
      rw [hfresh]
      refine searches_of_find? (used.length + 1) ?_
      simpa only [candidateNames, Nat.add_comm 2] using hfind
  exact ⟨fun h => h.unique hends, fun h => h ▸ hends⟩

/-- Which names are used is all that the search depends on. -/
theorem Searches.congr {used' : List String} (hused : ∀ name, name ∈ used ↔ name ∈ used')
    {name found : String} {n : Nat} (h : Searches used base name n found) :
    Searches used' base name n found := by
  induction h with
  | free hfree => exact .free fun hmem => hfree ((hused _).2 hmem)
  | taken hmem _ ih => exact .taken ((hused _).1 hmem) ih

/-- A code gets the name at which the search ends among the names of the codes before. -/
theorem searches_of_nameCodes {codes : List String} {front back : List (String × String)}
    {code name : String} (h : nameCodes used codes = front ++ (code, name) :: back) :
    Searches (used ++ front.map (·.2)) ("spgm_locale_" ++ codeName code)
      ("spgm_locale_" ++ codeName code) 2 name := by
  induction codes generalizing used front with
  | nil => simp [nameCodes] at h
  | cons c codes ih =>
    rw [nameCodes] at h
    cases front with
    | nil =>
      obtain ⟨hpair, -⟩ := List.cons.inj h
      obtain ⟨rfl, rfl⟩ := Prod.mk.inj hpair
      rw [List.map_nil, List.append_nil]
      exact searches_iff.2 rfl
    | cons x front =>
      rw [List.cons_append] at h
      obtain ⟨rfl, hrest⟩ := List.cons.inj h
      refine (ih hrest).congr fun name => ?_
      rw [List.map_cons]
      exact List.perm_middle.mem_iff.symm

/-! ## What the source defines -/

/-- The names that the source defines. -/
def definedNames (symbolPrefix : String) (entries members : List Entry) : List String :=
  (sourceDeclarations symbolPrefix entries members).filterMap Declaration.name?

/-- The name of a definition that other files see. -/
def Declaration.sharedName? (d : Declaration) : Option String :=
  if d.staticName?.isSome then none else d.name?

/-- A definition is seen by other files or not. -/
theorem count_filterMap_name? (ds : List Declaration) (name : String) :
    (ds.filterMap Declaration.name?).count name =
      (ds.filterMap Declaration.staticName?).count name +
        (ds.filterMap Declaration.sharedName?).count name := by
  have hcases : ∀ d : Declaration, (d.staticName? = d.name? ∧ d.sharedName? = none) ∨
      (d.staticName? = none ∧ d.sharedName? = d.name?) := by
    rintro (_ | _ | _ | _ | ⟨_ | _, _, _⟩ | ⟨_ | _, _, _, _⟩ | _) <;>
      simp [Declaration.staticName?, Declaration.sharedName?, Declaration.name?]
  induction ds with
  | nil => rfl
  | cons d ds ih =>
    simp only [List.filterMap_cons]
    rcases hcases d with ⟨hstatic, hshared⟩ | ⟨hstatic, hshared⟩
    · rw [hstatic, hshared]
      cases d.name? with
      | none => exact ih
      | some name' => simp only [List.count_cons, ih]; omega
    · rw [hstatic, hshared]
      cases d.name? with
      | none => exact ih
      | some name' => simp only [List.count_cons, ih]; omega

theorem filterMap_sharedName?_tableDeclarations (names : List (String × String)) (shared : Bool)
    (e : Entry) (fallbackSymbol base table : String) :
    (tableDeclarations names shared e fallbackSymbol base table).filterMap
        Declaration.sharedName? = if shared then [table] else [] := by
  have htexts : ((e.namedTexts base).map fun x => Declaration.text false x.2 x.1).filterMap
      Declaration.sharedName? = [] := by
    simp [List.filterMap_map, List.filterMap_eq_nil_iff, Declaration.sharedName?,
      Declaration.staticName?]
  rw [tableDeclarations_eq, List.filterMap_append, htexts]
  cases shared <;> rfl

theorem filterMap_sharedName?_memberDeclarations (names : List (String × String)) (index : Nat)
    (e : Entry) : (memberDeclarations names index e).filterMap Declaration.sharedName? = [] := by
  rw [memberDeclarations_eq, List.filterMap_append]
  split
  · rfl
  · rw [filterMap_sharedName?_tableDeclarations]
    rfl

/-- The source defines for other files what the header declares. -/
theorem filterMap_sharedName?_sourceDeclarations (symbolPrefix : String)
    (entries members : List Entry) :
    (sourceDeclarations symbolPrefix entries members).filterMap Declaration.sharedName? =
      (headerDeclarations symbolPrefix entries).filterMap Declaration.name? := by
  have hcodes : (codeDeclarations (localeNames (entries ++ members))).filterMap
      Declaration.sharedName? = [] := by
    rw [codeDeclarations]
    split
    · rfl
    · simp [List.filterMap_eq_nil_iff, Declaration.sharedName?, Declaration.staticName?,
        Declaration.name?]
  have hmembers : (members.zipIdx.flatMap fun x =>
      memberDeclarations (localeNames (entries ++ members)) x.2 x.1).filterMap
      Declaration.sharedName? = [] := by
    rw [List.filterMap_flatMap, List.flatMap_eq_nil_iff]
    exact fun x _ => filterMap_sharedName?_memberDeclarations _ _ _
  have hentry : ∀ e : Entry,
      (entryDeclarations symbolPrefix (localeNames (entries ++ members)) e).filterMap
        Declaration.sharedName? =
      (Declaration.externText (storageSymbol symbolPrefix e.identifier) ::
        if e.locales.isEmpty then [] else [.externTable (tableSymbol e.identifier)]).filterMap
          Declaration.name? := by
    intro e
    rw [entryDeclarations, List.filterMap_append]
    split
    · rfl
    · rw [filterMap_sharedName?_tableDeclarations]
      rfl
  have hgap : (if entries.isEmpty then [] else [Declaration.gap]).filterMap Declaration.name? =
      [] := by
    split <;> rfl
  have hgap' : [Declaration.gap].filterMap Declaration.sharedName? = [] := rfl
  rw [sourceDeclarations_eq, headerDeclarations]
  simp only [List.filterMap_append, hcodes, hmembers, hgap]
  rw [List.filterMap_flatMap, List.filterMap_flatMap]
  simp only [hentry, hgap', List.append_nil]
  rfl

/-! ## No name twice -/

/-- No two static names are the same. -/
theorem nodup_staticNames {entries : List Entry} (h : (identifiers entries).Nodup)
    (symbolPrefix : String) (members : List Entry) :
    (staticNames symbolPrefix entries members).Nodup := by
  obtain ⟨rests, hcodes, hstatic⟩ := staticNames_eq symbolPrefix entries members
  have hrests : (rests.map Symbol.code).Nodup := by
    refine List.Nodup.of_map Symbol.text ?_
    rw [← hcodes]
    exact nodup_nameCodes ..
  rw [hstatic]
  exact ((nodup_sourceSymbols hrests h).filter _).map Symbol.text_injective

/-- The array and the tables of the header have no static names. -/
theorem notMem_of_mem_staticNames {symbolPrefix name : String} {entries members : List Entry}
    (h : name ∈ staticNames symbolPrefix entries members) :
    name ∉ tableNames entries ++ [membersSymbol] := by
  obtain ⟨rests, -, hstatic⟩ := staticNames_eq symbolPrefix entries members
  have htables : tableNames entries ++ [membersSymbol] =
      (tableSymbols entries ++ [Symbol.members]).map Symbol.text := by
    have hfixed := fixedNames_eq entries
    rw [fixedNames, List.append_assoc] at hfixed
    exact List.append_cancel_left hfixed
  rw [hstatic] at h
  obtain ⟨s, hs, rfl⟩ := List.mem_map.1 h
  rw [htables]
  intro hmem
  obtain ⟨s', hs', heq⟩ := List.mem_map.1 hmem
  obtain rfl := Symbol.text_injective heq
  have hhidden := (List.mem_filter.1 hs).2
  rcases mem_fixedSymbols hs' with rfl | ⟨identifier, rfl⟩ <;> cases hhidden

/-- A static name has its own definition, and that of each storage symbol that reads
like it. -/
theorem count_definedNames {entries : List Entry} (h : (identifiers entries).Nodup)
    {symbolPrefix name : String} {members : List Entry}
    (hname : name ∈ staticNames symbolPrefix entries members) :
    (definedNames symbolPrefix entries members).count name =
      1 + (entries.map fun e => storageSymbol symbolPrefix e.identifier).count name := by
  have hstatic : (staticNames symbolPrefix entries members).count name = 1 :=
    List.count_eq_one_of_mem (nodup_staticNames h symbolPrefix members) hname
  have hheader := (perm_headerNames symbolPrefix entries).count_eq name
  have hother := List.count_eq_zero_of_not_mem (notMem_of_mem_staticNames hname)
  rw [headerNames, fixedNames, List.append_assoc, List.count_append, List.count_append,
    List.count_append, hother] at hheader
  rw [definedNames, count_filterMap_name?, filterMap_sharedName?_sourceDeclarations]
  rw [staticNames] at hstatic
  omega

/-- The static names are distinct, and each is defined once unless a storage symbol reads
like it.  This is possible only if of the prefix and `spgm_` one begins with the other.
Every code that is used has a name, where the search among the names before it ends. -/
theorem staticNames_unique {entries : List Entry} (h : (identifiers entries).Nodup)
    (symbolPrefix : String) (members : List Entry) :
    (staticNames symbolPrefix entries members).Nodup ∧
      (∀ name ∈ staticNames symbolPrefix entries members,
        (definedNames symbolPrefix entries members).count name =
            1 + (entries.map fun e => storageSymbol symbolPrefix e.identifier).count name ∧
          (¬symbolPrefix.toList <+: "spgm_".toList → ¬"spgm_".toList <+: symbolPrefix.toList →
            (definedNames symbolPrefix entries members).count name = 1)) ∧
      (∀ e ∈ entries ++ members, ∀ code ∈ e.locales.keys,
        ∃ name ∈ staticNames symbolPrefix entries members,
          localeName (localeNames (entries ++ members)) code = name ∧
            .text false name code ∈ sourceDeclarations symbolPrefix entries members) ∧
      ∀ front back code name,
        localeNames (entries ++ members) = front ++ (code, name) :: back →
          ∀ found, Searches (front.map (·.2)) ("spgm_locale_" ++ codeName code)
            ("spgm_locale_" ++ codeName code) 2 found ↔ found = name := by
  refine ⟨nodup_staticNames h symbolPrefix members, fun name hname => ?_, fun e he code hcode => ?_,
    fun front back code name hnames found => ?_⟩
  · refine ⟨count_definedNames h hname, fun hprefix hprefix' => ?_⟩
    have hstorage : name ∉ entries.map fun e => storageSymbol symbolPrefix e.identifier := by
      intro hmem
      obtain ⟨e, -, rfl⟩ := List.mem_map.1 hmem
      exact storageSymbol_notMem_otherNames hprefix hprefix' _ entries members
        (List.mem_append_right _ hname)
    rw [count_definedNames h hname, List.count_eq_zero_of_not_mem hstorage]
  · have hmem := text_mem_codeDeclarations he hcode
    have hsource : .text false (localeName (localeNames (entries ++ members)) code) code ∈
        sourceDeclarations symbolPrefix entries members := by
      rw [sourceDeclarations_eq]
      simp [hmem]
    exact ⟨_, List.mem_filterMap.2 ⟨_, hsource, rfl⟩, rfl, hsource⟩
  · have hends : Searches (front.map (·.2)) _ _ 2 name := searches_of_nameCodes hnames
    exact ⟨fun hfound => hfound.unique hends, fun heq => heq ▸ hends⟩

/-! ### Codes that read alike -/

/-- An entry with texts for codes that read alike, and for one that has the name of
another with its number. -/
def variants : Entry where
  identifier := "label_1"
  origin := .fixed
  fallback := some ⟨"Label", ⟨"a.c", 1, 1⟩⟩
  locales := .ofList [("de-AT", ⟨"Schild", ⟨"a.c", 1, 1⟩⟩), ("de_AT", ⟨"Tafel", ⟨"a.c", 1, 1⟩⟩),
    ("de-AT-2", ⟨"Zettel", ⟨"a.c", 1, 1⟩⟩)]

/-- An entry whose texts would have the names of the other, were not the number the last. -/
def variant : Entry where
  identifier := "label"
  origin := .fixed
  fallback := some ⟨"Label", ⟨"a.c", 2, 1⟩⟩
  locales := .ofList [("*", ⟨"Sign", ⟨"a.c", 2, 1⟩⟩), ("any", ⟨"Note", ⟨"a.c", 2, 1⟩⟩)]

theorem staticNames_unique_variants :
    (identifiers [variants, variant]).Nodup ∧
      (staticNames "SPGM_" [variants, variant] [variants]).Nodup ∧
      localeNames ([variants, variant] ++ [variants]) =
        [("any", "spgm_locale_any"), ("de-AT", "spgm_locale_de_AT"),
          ("de-AT-2", "spgm_locale_de_AT_2"), ("de_AT", "spgm_locale_de_AT_3"),
          ("*", "spgm_locale_any_2")] := by
  have h : (identifiers [variants, variant]).Nodup := by decide
  exact ⟨h, (staticNames_unique h "SPGM_" [variants]).1, by decide +kernel⟩

/-- An entry whose storage symbol reads like the name of its code, with the prefix of the
static names. -/
def coded : Entry where
  identifier := "locale_de"
  origin := .fixed
  fallback := some ⟨"Locale", ⟨"a.c", 1, 1⟩⟩
  locales := .ofList [("de", ⟨"Sprache", ⟨"a.c", 1, 1⟩⟩)]

/-- The prefix of the static names is accepted, and with it a static name can be defined
twice. -/
theorem staticNames_not_unique :
    ({ symbolPrefix := "spgm_" } : Config).check = .ok () ∧ (identifiers [coded]).Nodup ∧
      isIdentifier coded.identifier = true ∧ (∀ code ∈ coded.locales.keys, isLocaleCode code) ∧
      "spgm_locale_de" ∈ staticNames "spgm_" [coded] [] ∧
      (definedNames "spgm_" [coded] []).count "spgm_locale_de" = 2 := by
  decide +kernel

end FlashStrings
