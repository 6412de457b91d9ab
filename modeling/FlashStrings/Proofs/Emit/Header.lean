import FlashStrings.Config.Basic
import FlashStrings.Proofs.Emit.Storage
import FlashStrings.Proofs.Emit.Tables

/-!
# Names of the header

The header names two types and declares a storage symbol for every entry, a table
for every entry with texts by locale, and the array for automatic initialisation.
The source keeps the names of codes, of single texts and of members to itself
(`Declaration.staticName?`).  The names are *apart* when no two of the header are
the same and the source keeps none of them (`NamesApart`).

All names but the storage symbols begin with `spgm_`.  They are names of symbols
(`staticNames_eq`) or of types, and no symbol has the name of a type but a code
that reads `entry_t` (`eq_code_of_text_mem_typeNames`).  A storage symbol begins
with the prefix that the user chose, so it may be any of the other names, unless
neither of the prefix and `spgm_` begins with the other one
(`storageSymbol_notMem_otherNames`).  Nothing else can bring two names together
(`namesApart_iff`).
-/

namespace FlashStrings

/-! ## Names -/

/-- The name that a line gives to a type. -/
def typeName? (line : String) : Option String :=
  match line.toList with
  | '\x7d' :: ' ' :: name => some (String.ofList name.dropLast)
  | _ => none

/-- The names of the types in the header. -/
def typeNames : List String := typeLines.filterMap typeName?

example : typeNames = ["spgm_locale_entry_t", "spgm_auto_init_t"] := by decide

/-- The names of file scope in the header. -/
def headerNames (symbolPrefix : String) (entries : List Entry) : List String :=
  typeNames ++ (headerDeclarations symbolPrefix entries).filterMap Declaration.name?

/-- The name of a definition that is seen in its file alone. -/
def Declaration.staticName? : Declaration → Option String
  | text false name _ | table false name _ _ => some name
  | _ => none

/-- The names that the source keeps to itself. -/
def staticNames (symbolPrefix : String) (entries members : List Entry) : List String :=
  (sourceDeclarations symbolPrefix entries members).filterMap Declaration.staticName?

/-- The names of the header are apart from each other and from those that the
source keeps. -/
structure NamesApart (symbolPrefix : String) (entries members : List Entry) : Prop where
  /-- No name of the header stands for two things. -/
  distinct : (headerNames symbolPrefix entries).Nodup
  /-- The source keeps none of them. -/
  visible : ∀ name ∈ headerNames symbolPrefix entries,
    name ∉ staticNames symbolPrefix entries members

/-- The names of the tables in the header. -/
def tableNames (entries : List Entry) : List String :=
  entries.flatMap fun e => if e.locales.isEmpty then [] else [tableSymbol e.identifier]

/-- The names of the header but for the storage symbols. -/
def fixedNames (entries : List Entry) : List String :=
  typeNames ++ tableNames entries ++ [membersSymbol]

/-- All names but the storage symbols. -/
def otherNames (symbolPrefix : String) (entries members : List Entry) : List String :=
  fixedNames entries ++ staticNames symbolPrefix entries members

/-! ## The names of codes -/

theorem exists_of_mem_nameCodes {used codes : List String} {x : String × String}
    (h : x ∈ nameCodes used codes) :
    x.1 ∈ codes ∧ ∃ count, x.2 ∈ candidateNames count ("spgm_locale_" ++ codeName x.1) := by
  induction codes generalizing used with
  | nil => cases h
  | cons code codes ih =>
    rcases List.mem_cons.1 h with rfl | h
    · exact ⟨List.mem_cons_self, _, (freshName_spec ..).1⟩
    · obtain ⟨hmem, hname⟩ := ih h
      exact ⟨List.mem_cons_of_mem _ hmem, hname⟩

/-- A name that is not used is taken as it is. -/
theorem freshName_of_notMem {used : List String} {base : String} (h : base ∉ used) :
    freshName used base = base := by
  rw [freshName, List.find?_cons_of_pos (by simpa using h)]
  rfl

/-- The name of a code without a number is the name of some code. -/
theorem mem_nameCodes_of_mem {used codes : List String} {code : String} (h : code ∈ codes) :
    "spgm_locale_" ++ codeName code ∈ used ++ (nameCodes used codes).map (·.2) := by
  induction codes generalizing used with
  | nil => cases h
  | cons c codes ih =>
    rw [nameCodes, List.map_cons]
    rcases List.mem_cons.1 h with rfl | h
    · by_cases hused : "spgm_locale_" ++ codeName code ∈ used
      · exact List.mem_append_left _ hused
      · rw [freshName_of_notMem hused]
        exact List.mem_append_right _ List.mem_cons_self
    · have hrest := @ih (freshName used ("spgm_locale_" ++ codeName c) :: used) h
      exact List.perm_middle.mem_iff.2 hrest

/-- A name with a number ends with a digit. -/
theorem numbered_ne_entryType (base : String) (n : Nat) :
    numbered base n ≠ "spgm_locale_entry_t" := by
  intro h
  have hlast : ('_' :: Nat.toDigits 10 n).getLast? = some 't' := by
    have hlist := congrArg (fun s : String => s.toList.getLast?) h
    simp only [toList_numbered, List.getLast?_append_cons] at hlist
    exact hlist
  have hmem : 't' ∈ Nat.toDigits 10 n :=
    (List.mem_cons.1 (List.mem_of_getLast? hlast)).resolve_left (by decide)
  exact absurd (Nat.isDigit_of_mem_toDigits (by decide) (by decide) hmem) (by decide)

/-- A code has the name of a type if one reads `entry_t`. -/
theorem entryType_mem_codes_iff {entries : List Entry} :
    "spgm_locale_entry_t" ∈ (localeNames entries).map (·.2) ↔
      ∃ code ∈ usedCodes entries, codeName code = "entry_t" := by
  constructor
  · intro h
    obtain ⟨x, hx, hname⟩ := List.mem_map.1 h
    obtain ⟨hcode, count, hmem⟩ := exists_of_mem_nameCodes hx
    refine ⟨x.1, hcode, ?_⟩
    rw [hname] at hmem
    rcases List.mem_cons.1 hmem with heq | hmem
    · exact (@storageSymbol_inj "spgm_locale_" _ _).1 heq.symm
    · obtain ⟨i, -, hi⟩ := List.mem_map.1 hmem
      exact absurd hi (numbered_ne_entryType _ _)
  · rintro ⟨code, hcode, hname⟩
    have hmem := @mem_nameCodes_of_mem [] _ _ hcode
    rwa [hname] at hmem

/-! ## The names that the source keeps -/

/-- The source keeps the name of the symbol to itself. -/
def Symbol.isHidden : Symbol → Bool
  | .code _ | .value _ _ | .member _ _ => true
  | _ => false

theorem filterMap_staticName?_tableDeclarations (names : List (String × String)) (shared : Bool)
    (e : Entry) (fallbackSymbol base table : String) :
    (tableDeclarations names shared e fallbackSymbol base table).filterMap
        Declaration.staticName? =
      (List.range (e.namedTexts base).length).map (fun i => numbered base (i + 1)) ++
        if shared then [] else [table] := by
  have hnames : (e.namedTexts base).map (·.2) =
      (List.range (e.namedTexts base).length).map fun i => numbered base (i + 1) :=
    map_snd_nameTexts rfl _
  have htexts : ((e.namedTexts base).map fun x => Declaration.text false x.2 x.1).filterMap
      Declaration.staticName? = (e.namedTexts base).map (·.2) := by
    rw [List.filterMap_map]
    exact congrFun List.filterMap_eq_map _
  rw [tableDeclarations_eq, List.filterMap_append, htexts, hnames]
  cases shared <;> rfl

theorem filterMap_staticName?_entryDeclarations (symbolPrefix : String)
    (names : List (String × String)) (e : Entry) :
    (entryDeclarations symbolPrefix names e).filterMap Declaration.staticName? =
      (e.symbols.filter Symbol.isHidden).map Symbol.text := by
  rw [entryDeclarations, List.filterMap_append, Entry.symbols,
    List.filter_cons_of_neg (by simp [Symbol.isHidden])]
  split
  · rfl
  · have hvalues : ((List.range (e.namedTexts ("spgm_value_" ++ e.identifier)).length).map
        fun i => Symbol.value e.identifier (i + 1)).filter Symbol.isHidden =
        (List.range (e.namedTexts ("spgm_value_" ++ e.identifier)).length).map
          fun i => Symbol.value e.identifier (i + 1) := by
      simp [List.filter_eq_self, Symbol.isHidden]
    rw [filterMap_staticName?_tableDeclarations, List.filter_append, hvalues, List.map_append,
      List.map_map]
    simp only [numbered_append]
    rfl

theorem filterMap_staticName?_memberDeclarations (names : List (String × String)) (index : Nat)
    (e : Entry) :
    (memberDeclarations names index e).filterMap Declaration.staticName? =
      ((e.memberSymbols index).filter Symbol.isHidden).map Symbol.text := by
  have hhidden : (e.memberSymbols index).filter Symbol.isHidden = e.memberSymbols index := by
    refine List.filter_eq_self.2 fun s hs => ?_
    have hindex := index?_of_mem_memberSymbols hs
    cases s <;> first | rfl | cases hindex
  rw [hhidden, ← filterMap_name?_memberDeclarations names, memberDeclarations_eq,
    List.filterMap_append, List.filterMap_append]
  split
  · rfl
  · rw [filterMap_staticName?_tableDeclarations, filterMap_name?_tableDeclarations]
    rfl

/-- The source keeps the names of its hidden symbols, among them those of all codes. -/
theorem staticNames_eq (symbolPrefix : String) (entries members : List Entry) :
    ∃ rests : List String,
      (localeNames (entries ++ members)).map (·.2) = (rests.map Symbol.code).map Symbol.text ∧
      staticNames symbolPrefix entries members =
        ((sourceSymbols rests entries members).filter Symbol.isHidden).map Symbol.text := by
  obtain ⟨rests, hcodes, -⟩ := filterMap_name?_sourceDeclarations entries members
  have hrests : (rests.map Symbol.code).filter Symbol.isHidden = rests.map Symbol.code := by
    simp [List.filter_eq_self, Symbol.isHidden]
  have hnames : (codeDeclarations (localeNames (entries ++ members))).filterMap
      Declaration.staticName? = (localeNames (entries ++ members)).map (·.2) := by
    rw [← filterMap_name?_codeDeclarations, codeDeclarations]
    refine List.filterMap_congr fun d hd => ?_
    split at hd
    · cases hd
    · rcases List.mem_cons.1 hd with rfl | hd
      · rfl
      · obtain ⟨x, -, rfl⟩ := List.mem_map.1 hd
        rfl
  have hlast : [Symbol.members].filter Symbol.isHidden = [] := rfl
  refine ⟨rests, hcodes, ?_⟩
  rw [staticNames, sourceDeclarations_eq, sourceSymbols]
  simp only [List.filterMap_append, List.filter_append, List.map_append, List.filter_flatMap]
  rw [hnames, hcodes, hrests, hlast,
    filterMap_flatMap_text (filterMap_staticName?_entryDeclarations symbolPrefix _),
    filterMap_flatMap_text fun x : Entry × Nat =>
      filterMap_staticName?_memberDeclarations _ x.2 x.1]
  simp only [List.filterMap_cons, List.filterMap_nil, List.append_nil, List.map_nil,
    Declaration.staticName?]

/-! ## Symbols and types -/

/-- No symbol has the name of the type of members. -/
theorem text_ne_memberType (s : Symbol) : s.text ≠ "spgm_auto_init_t" := by
  intro h
  have htext := congrArg String.toList h
  rw [Symbol.text, String.toList_append] at htext
  cases s with
  | member index part =>
    -- a number does not begin with a letter
    have hrest : Nat.toDigits 10 index ++ '_' :: part.toList = ['t'] := by
      simpa [Symbol.start, Symbol.rest, toString] using htext
    have hmem : '_' ∈ ['t'] := hrest ▸ by simp
    exact absurd hmem (by decide)
  | _ => simp [Symbol.start, Symbol.rest] at htext

/-- Of all symbols only a code has the name of a type. -/
theorem eq_code_of_text_mem_typeNames {s : Symbol} (h : s.text ∈ typeNames) :
    s = .code "entry_t" := by
  have htypes : typeNames = ["spgm_locale_entry_t", "spgm_auto_init_t"] := by decide
  rw [htypes, List.mem_cons, List.mem_singleton] at h
  exact Symbol.text_injective (h.resolve_right (text_ne_memberType s))

/-- The symbols of the tables in the header. -/
def tableSymbols (entries : List Entry) : List Symbol :=
  entries.flatMap fun e => if e.locales.isEmpty then [] else [.table e.identifier]

theorem fixedNames_eq (entries : List Entry) :
    fixedNames entries =
      typeNames ++ (tableSymbols entries ++ [Symbol.members]).map Symbol.text := by
  have htables : tableNames entries = (tableSymbols entries).map Symbol.text := by
    rw [tableNames, tableSymbols, List.map_flatMap]
    refine List.flatMap_congr fun e _ => ?_
    split <;> rfl
  rw [fixedNames, htables, List.map_append, List.append_assoc]
  rfl

theorem mem_fixedSymbols {entries : List Entry} {s : Symbol}
    (h : s ∈ tableSymbols entries ++ [Symbol.members]) :
    s = .members ∨ ∃ identifier, s = .table identifier := by
  rcases List.mem_append.1 h with h | h
  · obtain ⟨e, -, he⟩ := List.mem_flatMap.1 h
    split at he
    · cases he
    · exact .inr ⟨_, List.mem_singleton.1 he⟩
  · exact .inl (List.mem_singleton.1 h)

/-- No two names of the header but for storage symbols are the same. -/
theorem nodup_fixedNames {entries : List Entry} (h : (identifiers entries).Nodup) :
    (fixedNames entries).Nodup := by
  have hkey : ∀ (e : Entry), ∀ s ∈ if e.locales.isEmpty then [] else [Symbol.table e.identifier],
      s.identifier? = some e.identifier := by
    intro e s hs
    split at hs
    · cases hs
    · rw [List.mem_singleton.1 hs]
      rfl
  have htables : (tableSymbols entries).Nodup := by
    refine nodup_flatMap_of_key (fun e => ?_) hkey h
    split
    · exact .nil
    · exact List.nodup_singleton _
  have hsymbols : (tableSymbols entries ++ [Symbol.members]).Nodup := by
    refine List.nodup_append.2 ⟨htables, List.nodup_singleton _, fun s hs s' hs' heq => ?_⟩
    rw [heq, List.mem_singleton.1 hs'] at hs
    obtain ⟨e, -, he⟩ := List.mem_flatMap.1 hs
    split at he <;> simp at he
  rw [fixedNames_eq]
  refine List.nodup_append.2 ⟨by decide, hsymbols.map Symbol.text_injective, ?_⟩
  intro name hname name' hname' heq
  obtain ⟨s, hs, rfl⟩ := List.mem_map.1 hname'
  have htype : s.text ∈ typeNames := heq ▸ hname
  rw [eq_code_of_text_mem_typeNames htype] at hs
  rcases mem_fixedSymbols hs with h | ⟨identifier, h⟩ <;> cases h

/-! ## Names apart -/

theorem code_mem_of_mem_sourceSymbols {rest : String} {rests : List String}
    {entries members : List Entry} (h : .code rest ∈ sourceSymbols rests entries members) :
    .code rest ∈ rests.map Symbol.code := by
  rw [sourceSymbols] at h
  rcases List.mem_append.1 h with h | h
  · rcases List.mem_append.1 h with h | h
    · rcases List.mem_append.1 h with h | h
      · exact h
      · obtain ⟨e, -, hs⟩ := List.mem_flatMap.1 h
        cases identifier?_of_mem_symbols hs
    · obtain ⟨x, -, hs⟩ := List.mem_flatMap.1 h
      cases index?_of_mem_memberSymbols hs
  · cases List.mem_singleton.1 h

/-- The source keeps a name of the header when a code reads `entry_t`. -/
theorem disjoint_staticNames_iff (symbolPrefix : String) (entries members : List Entry) :
    (∀ name ∈ fixedNames entries, name ∉ staticNames symbolPrefix entries members) ↔
      ∀ code ∈ usedCodes (entries ++ members), codeName code ≠ "entry_t" := by
  obtain ⟨rests, hcodes, hstatic⟩ := staticNames_eq symbolPrefix entries members
  constructor
  · intro h code hcode hname
    have hmem : "spgm_locale_entry_t" ∈ (rests.map Symbol.code).map Symbol.text :=
      hcodes ▸ entryType_mem_codes_iff.2 ⟨code, hcode, hname⟩
    obtain ⟨s, hs, htext⟩ := List.mem_map.1 hmem
    refine h "spgm_locale_entry_t" ?_
      (hstatic ▸ List.mem_map.2 ⟨s, List.mem_filter.2 ⟨?_, ?_⟩, htext⟩)
    · exact List.mem_append_left _ (List.mem_append_left _ (by decide))
    · simp [sourceSymbols, hs]
    · obtain ⟨rest, -, rfl⟩ := List.mem_map.1 hs
      rfl
  · intro h name hname hmem
    rw [hstatic] at hmem
    obtain ⟨s, hs, rfl⟩ := List.mem_map.1 hmem
    obtain ⟨hsource, hhidden⟩ := List.mem_filter.1 hs
    rw [fixedNames_eq] at hname
    rcases List.mem_append.1 hname with hname | hname
    · obtain rfl := eq_code_of_text_mem_typeNames hname
      have hcode : "spgm_locale_entry_t" ∈ (localeNames (entries ++ members)).map (·.2) :=
        hcodes ▸ List.mem_map.2 ⟨_, code_mem_of_mem_sourceSymbols hsource, rfl⟩
      obtain ⟨code, hused, hname⟩ := entryType_mem_codes_iff.1 hcode
      exact h code hused hname
    · obtain ⟨s', hs', heq⟩ := List.mem_map.1 hname
      obtain rfl := Symbol.text_injective heq
      rcases mem_fixedSymbols hs' with rfl | ⟨identifier, rfl⟩ <;> cases hhidden

/-- All names but the storage symbols begin alike. -/
theorem spgm_isPrefix_of_mem_otherNames {symbolPrefix name : String} {entries members : List Entry}
    (h : name ∈ otherNames symbolPrefix entries members) : "spgm_".toList <+: name.toList := by
  have hstart : ∀ s : Symbol, (∀ identifier, s ≠ .storage identifier) →
      "spgm_".toList <+: s.text.toList := by
    intro s hs
    rw [Symbol.text, String.toList_append]
    refine List.IsPrefix.trans ?_ (List.prefix_append ..)
    cases s with
    | storage identifier => exact absurd rfl (hs identifier)
    | _ => simp only [Symbol.start]; decide
  obtain ⟨rests, -, hstatic⟩ := staticNames_eq symbolPrefix entries members
  rw [otherNames, fixedNames_eq, hstatic] at h
  rcases List.mem_append.1 h with h | h
  · rcases List.mem_append.1 h with h | h
    · exact (by decide : ∀ name ∈ typeNames, "spgm_".toList <+: name.toList) name h
    · obtain ⟨s, hs, rfl⟩ := List.mem_map.1 h
      refine hstart s fun identifier heq => ?_
      rcases mem_fixedSymbols hs with h | ⟨_, h⟩ <;> cases heq.symm.trans h
  · obtain ⟨s, hs, rfl⟩ := List.mem_map.1 h
    refine hstart s fun identifier heq => ?_
    have hhidden := (List.mem_filter.1 hs).2
    rw [heq] at hhidden
    cases hhidden

/-- A storage symbol is no other name when neither of its prefix and `spgm_` begins
with the other one. -/
theorem storageSymbol_notMem_otherNames {symbolPrefix : String}
    (h : ¬symbolPrefix.toList <+: "spgm_".toList) (h' : ¬"spgm_".toList <+: symbolPrefix.toList)
    (identifier : String) (entries members : List Entry) :
    storageSymbol symbolPrefix identifier ∉ otherNames symbolPrefix entries members := by
  intro hmem
  have hspgm := spgm_isPrefix_of_mem_otherNames hmem
  rw [storageSymbol, String.toList_append] at hspgm
  rcases List.prefix_or_prefix_of_prefix (List.prefix_append ..) hspgm with hp | hp
  · exact h hp
  · exact h' hp

theorem perm_headerNames (symbolPrefix : String) (entries : List Entry) :
    (headerNames symbolPrefix entries).Perm
      (entries.map (fun e => storageSymbol symbolPrefix e.identifier) ++ fixedNames entries) := by
  have hgap : (if entries.isEmpty then [] else [Declaration.gap]).filterMap Declaration.name? =
      [] := by
    split <;> rfl
  have hentry : ∀ e : Entry, (Declaration.externText (storageSymbol symbolPrefix e.identifier) ::
      if e.locales.isEmpty then [] else [.externTable (tableSymbol e.identifier)]).filterMap
        Declaration.name? =
      [storageSymbol symbolPrefix e.identifier] ++
        if e.locales.isEmpty then [] else [tableSymbol e.identifier] := by
    intro e
    split <;> rfl
  have hnames : (headerDeclarations symbolPrefix entries).filterMap Declaration.name? =
      (entries.flatMap fun e => [storageSymbol symbolPrefix e.identifier] ++
        if e.locales.isEmpty then [] else [tableSymbol e.identifier]) ++ [membersSymbol] := by
    rw [headerDeclarations, List.filterMap_append, List.filterMap_append, hgap, List.nil_append,
      List.filterMap_flatMap]
    simp only [hentry]
    rfl
  have hparts : ((entries.flatMap fun e => [storageSymbol symbolPrefix e.identifier] ++
        if e.locales.isEmpty then [] else [tableSymbol e.identifier])).Perm
      (entries.map (fun e => storageSymbol symbolPrefix e.identifier) ++ tableNames entries) := by
    rw [← List.flatMap_singleton' (entries.map _), List.flatMap_map]
    exact (List.flatMap_append_perm ..).symm
  rw [headerNames, hnames, fixedNames, List.append_assoc]
  refine ((hparts.append_right _).append_left _).trans ?_
  rw [List.append_assoc]
  exact List.perm_append_comm_assoc ..

/-- The names of the header are apart unless a code reads `entry_t` or a storage
symbol has another name.  This one is possible only if of the prefix and `spgm_` one
begins with the other. -/
theorem namesApart_iff {symbolPrefix : String} {entries : List Entry}
    (hdistinct : (identifiers entries).Nodup) (members : List Entry) :
    (NamesApart symbolPrefix entries members ↔
      (∀ code ∈ usedCodes (entries ++ members), codeName code ≠ "entry_t") ∧
        ∀ e ∈ entries,
          storageSymbol symbolPrefix e.identifier ∉ otherNames symbolPrefix entries members) ∧
      (¬symbolPrefix.toList <+: "spgm_".toList → ¬"spgm_".toList <+: symbolPrefix.toList →
        ∀ e ∈ entries,
          storageSymbol symbolPrefix e.identifier ∉ otherNames symbolPrefix entries members) := by
  refine ⟨?_, fun h h' e _ => storageSymbol_notMem_otherNames h h' _ _ _⟩
  have hperm := perm_headerNames symbolPrefix entries
  have hstorage : (entries.map fun e => storageSymbol symbolPrefix e.identifier).Nodup := by
    have hmap := hdistinct.map (f := storageSymbol symbolPrefix) fun _ _ => storageSymbol_inj.1
    rwa [identifiers, List.map_map] at hmap
  have hsymbol : ∀ e ∈ entries, storageSymbol symbolPrefix e.identifier ∈
      entries.map fun e => storageSymbol symbolPrefix e.identifier :=
    fun e he => List.mem_map.2 ⟨e, he, rfl⟩
  rw [← disjoint_staticNames_iff symbolPrefix]
  constructor
  · rintro ⟨hnodup, hvisible⟩
    obtain ⟨-, -, hother⟩ := List.nodup_append.1 (hperm.nodup_iff.1 hnodup)
    refine ⟨fun name hname => hvisible name (hperm.mem_iff.2 (List.mem_append_right _ hname)),
      fun e he hmem => ?_⟩
    rcases List.mem_append.1 hmem with hmem | hmem
    · exact hother _ (hsymbol e he) _ hmem rfl
    · exact hvisible _ (hperm.mem_iff.2 (List.mem_append_left _ (hsymbol e he))) hmem
  · rintro ⟨hfixed, hother⟩
    refine ⟨hperm.nodup_iff.2 (List.nodup_append.2 ⟨hstorage, nodup_fixedNames hdistinct, ?_⟩),
      fun name hname => ?_⟩
    · rintro _ hname name' hname' rfl
      obtain ⟨e, he, rfl⟩ := List.mem_map.1 hname
      exact hother e he (List.mem_append_left _ hname')
    · rcases List.mem_append.1 (hperm.mem_iff.1 hname) with hname | hname
      · obtain ⟨e, he, rfl⟩ := List.mem_map.1 hname
        exact fun hmem => hother e he (List.mem_append_right _ hmem)
      · exact hfixed name hname

/-! ### Names that come together -/

theorem namesApart_greeting : NamesApart "SPGM_" [greeting] [prompt] := by
  obtain ⟨hiff, hprefix⟩ := namesApart_iff (by decide : (identifiers [greeting]).Nodup) [prompt]
  exact hiff.2 ⟨by decide +kernel, hprefix (by decide) (by decide)⟩

/-- An entry with a text for a code that reads like the end of the name of a type. -/
def titled : Entry where
  identifier := "title"
  origin := .fixed
  fallback := some ⟨"Title", ⟨"a.c", 1, 1⟩⟩
  locales := .ofList [("entry_t", ⟨"Titel", ⟨"a.c", 1, 1⟩⟩)]

/-- An entry whose identifier is the end of the name of the array. -/
def strings : Entry where
  identifier := "auto_init_strings"
  origin := .fixed
  fallback := some ⟨"Strings", ⟨"a.c", 1, 1⟩⟩

/-- A code has the name of a type, and with an accepted prefix a storage symbol has
that of the array. -/
theorem not_namesApart_examples :
    ({} : Config).check = .ok () ∧ ({ symbolPrefix := "spgm_" } : Config).check = .ok () ∧
      ¬NamesApart ({} : Config).symbolPrefix [titled] [] ∧ ¬NamesApart "spgm_" [strings] [] := by
  refine ⟨rfl, ?_, fun h => h.visible "spgm_locale_entry_t" ?_ ?_, fun h => ?_⟩
  · decide +kernel
  · decide +kernel
  · decide +kernel
  · exact absurd h.distinct (by decide +kernel)

end FlashStrings
