import FlashStrings.Proofs.Emit.Names
import FlashStrings.Proofs.Merge.Lookup
import FlashStrings.Proofs.Text.Marked

/-!
# Symbols of the source

A `Symbol` is what a name of the source stands for.  A name begins with the start
of a family of symbols, and no start begins with another one, so every name
stands for one symbol (`Symbol.text_injective`).  Storage symbols begin with
`SPGM_` here; all others begin with `spgm_`.

The declarations of the source define the names of these symbols
(`filterMap_name?_sourceDeclarations`).  Every symbol belongs to one entry, to one
member of the list for automatic initialisation, or to the codes, so when
identifiers are distinct no name is defined twice (`nodup_names`).
-/

namespace FlashStrings

/-- What a name of the source stands for. -/
inductive Symbol where
  /-- A code, by the end of its name. -/
  | code (rest : String)
  /-- The fallback of an entry. -/
  | storage (identifier : String)
  /-- Another text of an entry. -/
  | value (identifier : String) (n : Nat)
  /-- The table of an entry. -/
  | table (identifier : String)
  /-- Something of a member of the list for automatic initialisation. -/
  | member (index : Nat) (part : String)
  /-- The array for automatic initialisation. -/
  | members
  deriving DecidableEq, Repr

namespace Symbol

/-- How the names of a family of symbols begin. -/
def start : Symbol → String
  | code _ => "spgm_locale_"
  | storage _ => "SPGM_"
  | value _ _ => "spgm_value_"
  | table _ => "spgm_locales_"
  | member _ _ | members => "spgm_auto_init_"

/-- What follows the start. -/
def rest : Symbol → String
  | code rest => rest
  | storage identifier | table identifier => identifier
  | value identifier n => numbered identifier n
  | member index part => toString index ++ "_" ++ part
  | members => "strings"

/-- The name. -/
def text (s : Symbol) : String := s.start ++ s.rest

theorem start_mem (s : Symbol) :
    s.start ∈ ["spgm_locale_", "SPGM_", "spgm_value_", "spgm_locales_", "spgm_auto_init_"] := by
  cases s <;> simp [start]

/-- No start begins with another one. -/
theorem start_eq_of_text_eq {a b : Symbol} (h : a.text = b.text) : a.start = b.start := by
  have hapart : ∀ p ∈ ["spgm_locale_", "SPGM_", "spgm_value_", "spgm_locales_",
      "spgm_auto_init_"], ∀ q ∈ ["spgm_locale_", "SPGM_", "spgm_value_", "spgm_locales_",
      "spgm_auto_init_"], p.toList <+: q.toList → p = q := by decide
  have h : a.start.toList ++ a.rest.toList = b.start.toList ++ b.rest.toList := by
    simpa [text] using congrArg String.toList h
  rcases List.prefix_or_prefix_of_prefix (List.prefix_append a.start.toList a.rest.toList)
    (h ▸ List.prefix_append b.start.toList b.rest.toList) with hp | hp
  · exact hapart _ a.start_mem _ b.start_mem hp
  · exact (hapart _ b.start_mem _ a.start_mem hp).symm

theorem rest_eq_of_text_eq {a b : Symbol} (h : a.text = b.text) : a.rest = b.rest := by
  have h' := congrArg String.toList h
  rw [text, text, start_eq_of_text_eq h, String.toList_append, String.toList_append] at h'
  exact String.toList_inj.1 (List.append_cancel_left h')

theorem member_inj {i j : Nat} {part part' : String}
    (h : toString i ++ "_" ++ part = toString j ++ "_" ++ part') : i = j ∧ part = part' := by
  have h : Nat.toDigits 10 i ++ '_' :: part.toList = Nat.toDigits 10 j ++ '_' :: part'.toList := by
    simpa [toString] using congrArg String.toList h
  obtain ⟨hdigits, hpart⟩ := append_inj_of_marked Nat.underscore_not_in_toDigits
    Nat.underscore_not_in_toDigits (marked_cons _ _) (marked_cons _ _) h
  rw [List.cons_inj_right, String.toList_inj] at hpart
  exact ⟨toDigits_injective hdigits, hpart⟩

/-- The name of the array has no number where those of members have one. -/
theorem member_ne_strings (i : Nat) (part : String) : toString i ++ "_" ++ part ≠ "strings" := by
  intro h
  have h : Nat.toDigits 10 i ++ '_' :: part.toList = "strings".toList := by
    simpa [toString] using congrArg String.toList h
  have hmem : '_' ∈ "strings".toList := h ▸ by simp
  revert hmem
  decide

/-- A name stands for one symbol. -/
theorem text_injective : Function.Injective text := by
  intro a b h
  have hstart := start_eq_of_text_eq h
  have hrest := rest_eq_of_text_eq h
  cases a <;> cases b <;> simp only [start, rest] at hstart hrest <;>
    try exact absurd hstart (by decide)
  case code.code => rw [hrest]
  case storage.storage => rw [hrest]
  case value.value =>
    obtain ⟨rfl, rfl⟩ := numbered_inj hrest
    rfl
  case table.table => rw [hrest]
  case member.member =>
    obtain ⟨rfl, rfl⟩ := member_inj hrest
    rfl
  case member.members => exact absurd hrest (member_ne_strings _ _)
  case members.member => exact absurd hrest.symm (member_ne_strings _ _)
  case members.members => rfl

end Symbol

/-! ## What the source defines -/

namespace Entry

/-- The codes of an entry with their texts, as its table lists them. -/
def tableTexts (e : Entry) : List (String × String) :=
  (tableOrder e.locales.keys).filterMap fun code =>
    (e.locales.get? code).map fun t => (code, t.text)

/-- The texts of an entry that have names of their own. -/
def namedTexts (e : Entry) (base : String) : List (String × String) :=
  nameTexts base (e.fallback.map (·.text)) [] (e.tableTexts.map (·.2))

/-- The symbol of a text in the table. -/
def symbolOf (e : Entry) (base fallbackSymbol text : String) : String :=
  if e.fallback.map (·.text) = some text then fallbackSymbol
  else ((e.namedTexts base).lookup text).getD fallbackSymbol

/-- The rows of the table but the last. -/
def tableRows (e : Entry) (names : List (String × String)) (base fallbackSymbol : String) :
    List LocaleRow :=
  e.tableTexts.map fun (code, text) => ⟨localeName names code, e.symbolOf base fallbackSymbol text⟩

/-- What an entry defines. -/
def symbols (e : Entry) : List Symbol :=
  .storage e.identifier ::
    if e.locales.isEmpty then []
    else
      (List.range (e.namedTexts ("spgm_value_" ++ e.identifier)).length).map
        (fun i => .value e.identifier (i + 1)) ++ [.table e.identifier]

/-- What a member of the list for automatic initialisation defines. -/
def memberSymbols (index : Nat) (e : Entry) : List Symbol :=
  .member index "name" :: .member index "value" ::
    if e.locales.isEmpty then []
    else
      (List.range (e.namedTexts (Symbol.member index "value").text).length).map
        (fun i => .member index (numbered "value" (i + 1))) ++ [.member index "locales"]

end Entry

theorem tableDeclarations_eq (names : List (String × String)) (shared : Bool) (e : Entry)
    (fallbackSymbol base table : String) :
    tableDeclarations names shared e fallbackSymbol base table =
      (e.namedTexts base).map (fun x => .text false x.2 x.1) ++
        [.table shared table (e.tableRows names base fallbackSymbol) fallbackSymbol] := rfl

theorem filterMap_name?_tableDeclarations (names : List (String × String)) (shared : Bool)
    (e : Entry) (fallbackSymbol base table : String) :
    (tableDeclarations names shared e fallbackSymbol base table).filterMap Declaration.name? =
      (List.range (e.namedTexts base).length).map (fun i => numbered base (i + 1)) ++ [table] := by
  have hnames : (e.namedTexts base).map (·.2) =
      (List.range (e.namedTexts base).length).map fun i => numbered base (i + 1) :=
    map_snd_nameTexts rfl _
  have htexts : ((e.namedTexts base).map fun x => Declaration.text false x.2 x.1).filterMap
      Declaration.name? = (e.namedTexts base).map (·.2) := by
    rw [List.filterMap_map]
    exact congrFun List.filterMap_eq_map _
  rw [tableDeclarations_eq, List.filterMap_append, htexts, hnames]
  rfl

theorem filterMap_name?_entryDeclarations (names : List (String × String)) (e : Entry) :
    (entryDeclarations "SPGM_" names e).filterMap Declaration.name? =
      e.symbols.map Symbol.text := by
  rw [entryDeclarations, List.filterMap_append, Entry.symbols]
  split
  · rfl
  · rw [filterMap_name?_tableDeclarations, List.map_cons, List.map_append, List.map_map]
    simp only [numbered_append]
    rfl

theorem text_member (index : Nat) (part : String) :
    (Symbol.member index part).text = "spgm_auto_init_" ++ toString index ++ ("_" ++ part) := by
  rw [Symbol.text, Symbol.start, Symbol.rest, String.append_assoc, String.append_assoc]

theorem memberDeclarations_eq (names : List (String × String)) (index : Nat) (e : Entry) :
    memberDeclarations names index e =
      [.text false (Symbol.member index "name").text e.identifier,
        .text false (Symbol.member index "value").text e.fallbackText] ++
      if e.locales.isEmpty then []
      else
        tableDeclarations names false e (Symbol.member index "value").text
          (Symbol.member index "value").text (Symbol.member index "locales").text := by
  rw [text_member, text_member, text_member]
  have hlocales : (memberRow index e).locales =
      if e.locales.isEmpty then none else some s!"spgm_auto_init_{index}_locales" := rfl
  rw [memberDeclarations]
  simp only [hlocales]
  cases e.locales.isEmpty <;> rfl

theorem numbered_member (index : Nat) (part : String) (n : Nat) :
    numbered (Symbol.member index part).text n =
      (Symbol.member index (numbered part n)).text := by
  rw [text_member, text_member, numbered_append, numbered_append]

theorem filterMap_name?_memberDeclarations (names : List (String × String)) (index : Nat)
    (e : Entry) :
    (memberDeclarations names index e).filterMap Declaration.name? =
      (e.memberSymbols index).map Symbol.text := by
  rw [memberDeclarations_eq, List.filterMap_append, Entry.memberSymbols]
  split
  · rfl
  · rw [filterMap_name?_tableDeclarations, List.map_cons, List.map_cons, List.map_append,
      List.map_map, funext fun i => numbered_member index "value" (i + 1)]
    rfl

/-! ## The whole source -/

/-- The definitions of the codes. -/
def codeDeclarations (names : List (String × String)) : List Declaration :=
  if names.isEmpty then [] else .gap :: names.map fun (code, name) => .text false name code

theorem sourceDeclarations_eq (symbolPrefix : String) (entries members : List Entry) :
    sourceDeclarations symbolPrefix entries members =
      codeDeclarations (localeNames (entries ++ members)) ++
        entries.flatMap (entryDeclarations symbolPrefix (localeNames (entries ++ members))) ++
        [.gap] ++
        (members.zipIdx.flatMap fun x =>
          memberDeclarations (localeNames (entries ++ members)) x.2 x.1) ++
        [.members membersSymbol (members.mapIdx memberRow)] := by
  rw [sourceDeclarations, List.mapIdx_eq_zipIdx_map]
  rfl

/-- What the source defines, with the ends of the names of codes. -/
def sourceSymbols (rests : List String) (entries members : List Entry) : List Symbol :=
  rests.map .code ++ entries.flatMap Entry.symbols ++
    (members.zipIdx.flatMap fun x => x.1.memberSymbols x.2) ++ [.members]

theorem filterMap_name?_codeDeclarations (names : List (String × String)) :
    (codeDeclarations names).filterMap Declaration.name? = names.map (·.2) := by
  have hnames : (names.map fun x => Declaration.text false x.2 x.1).filterMap Declaration.name? =
      names.map (·.2) := by
    rw [List.filterMap_map]
    exact congrFun List.filterMap_eq_map _
  rw [codeDeclarations]
  cases names with
  | nil => rfl
  | cons x names => exact hnames

/-- The names of declarations that are made for each item of a list. -/
theorem filterMap_flatMap_text {α : Type} {name : Declaration → Option String}
    {each : α → List Declaration} {symbols : α → List Symbol}
    (h : ∀ a, (each a).filterMap name = (symbols a).map Symbol.text) (l : List α) :
    (l.flatMap each).filterMap name = (l.flatMap symbols).map Symbol.text := by
  rw [List.filterMap_flatMap, List.map_flatMap]
  exact List.flatMap_congr fun a _ => h a

/-- The names of the source are those of its symbols. -/
theorem filterMap_name?_sourceDeclarations (entries members : List Entry) :
    ∃ rests : List String,
      (localeNames (entries ++ members)).map (·.2) = (rests.map Symbol.code).map Symbol.text ∧
      (sourceDeclarations "SPGM_" entries members).filterMap Declaration.name? =
        (sourceSymbols rests entries members).map Symbol.text := by
  obtain ⟨rests, hrests⟩ := exists_map_snd_nameCodes [] (usedCodes (entries ++ members))
  have hcodes : (localeNames (entries ++ members)).map (·.2) =
      (rests.map Symbol.code).map Symbol.text := by
    rw [List.map_map]
    exact hrests
  refine ⟨rests, hcodes, ?_⟩
  rw [sourceDeclarations_eq, sourceSymbols]
  simp only [List.filterMap_append, List.map_append]
  rw [filterMap_name?_codeDeclarations, hcodes,
    filterMap_flatMap_text (filterMap_name?_entryDeclarations _),
    filterMap_flatMap_text fun x : Entry × Nat => filterMap_name?_memberDeclarations _ x.2 x.1,
    List.filterMap_cons_none rfl, List.filterMap_nil, List.append_nil]
  rfl

/-! ## No name is defined twice -/

namespace Symbol

/-- The identifier of the entry that a symbol belongs to. -/
def identifier? : Symbol → Option String
  | storage identifier | value identifier _ | table identifier => some identifier
  | _ => none

/-- The index of the member that a symbol belongs to. -/
def index? : Symbol → Option Nat
  | member index _ => some index
  | _ => none

/-- The part of the source that defines a symbol. -/
def part : Symbol → Nat
  | code _ => 0
  | storage _ | value _ _ | table _ => 1
  | member _ _ => 2
  | members => 3

theorem part_of_identifier? {s : Symbol} {identifier : String}
    (h : s.identifier? = some identifier) : s.part = 1 := by
  cases s <;> first | rfl | cases h

theorem part_of_index? {s : Symbol} {index : Nat} (h : s.index? = some index) : s.part = 2 := by
  cases s <;> first | rfl | cases h

end Symbol

theorem identifier?_of_mem_symbols {e : Entry} {s : Symbol} (h : s ∈ e.symbols) :
    s.identifier? = some e.identifier := by
  rw [Entry.symbols] at h
  rcases List.mem_cons.1 h with rfl | h
  · rfl
  · split at h
    · cases h
    · rcases List.mem_append.1 h with h | h
      · obtain ⟨n, -, rfl⟩ := List.mem_map.1 h
        rfl
      · obtain rfl := List.mem_singleton.1 h
        rfl

theorem index?_of_mem_memberSymbols {e : Entry} {index : Nat} {s : Symbol}
    (h : s ∈ e.memberSymbols index) : s.index? = some index := by
  rw [Entry.memberSymbols] at h
  rcases List.mem_cons.1 h with rfl | h
  · rfl
  · rcases List.mem_cons.1 h with rfl | h
    · rfl
    · split at h
      · cases h
      · rcases List.mem_append.1 h with h | h
        · obtain ⟨n, -, rfl⟩ := List.mem_map.1 h
          rfl
        · obtain rfl := List.mem_singleton.1 h
          rfl

theorem nodup_symbols (e : Entry) : e.symbols.Nodup := by
  have hrange : ((List.range (e.namedTexts ("spgm_value_" ++ e.identifier)).length).map
      fun i => Symbol.value e.identifier (i + 1)).Nodup :=
    List.nodup_range.map fun i j h => by simpa using h
  rw [Entry.symbols]
  split
  · simp
  · simp [List.nodup_append, hrange]

/-- The numbered parts of a member are none of the others. -/
theorem numbered_value_ne {part : String} (h : part ∈ ["name", "value", "locales"]) (n : Nat) :
    numbered "value" n ≠ part := by
  intro heq
  have heq := congrArg String.toList heq
  rw [toList_numbered] at heq
  simp only [List.mem_cons, List.not_mem_nil, or_false] at h
  rcases h with rfl | rfl | rfl <;> simp at heq

theorem nodup_memberSymbols (index : Nat) (e : Entry) : (e.memberSymbols index).Nodup := by
  have hrange : ((List.range (e.namedTexts (Symbol.member index "value").text).length).map
      fun i => Symbol.member index (numbered "value" (i + 1))).Nodup :=
    List.nodup_range.map fun i j h => Nat.add_right_cancel (numbered_inj (Symbol.member.inj h).2).2
  have hname : ∀ n, numbered "value" n ≠ "name" := numbered_value_ne (by simp)
  have hvalue : ∀ n, numbered "value" n ≠ "value" := numbered_value_ne (by simp)
  have hlocales : ∀ n, numbered "value" n ≠ "locales" := numbered_value_ne (by simp)
  rw [Entry.memberSymbols]
  split
  · simp
  · simp [List.nodup_append, hrange, hname, hvalue, hlocales]

/-- Lists whose symbols tell them apart have no symbol in common. -/
theorem nodup_flatMap_of_key {α κ : Type} {each : α → List Symbol} {key : Symbol → Option κ}
    {keyOf : α → κ} (heach : ∀ a, (each a).Nodup)
    (hkey : ∀ a, ∀ s ∈ each a, key s = some (keyOf a)) {l : List α} (h : (l.map keyOf).Nodup) :
    (l.flatMap each).Nodup := by
  refine List.nodup_flatMap.2 ⟨fun a _ => heach a, (List.pairwise_map.1 h).imp ?_⟩
  intro a b hne s ha hb
  exact hne (Option.some.inj ((hkey a s ha).symm.trans (hkey b s hb)))

theorem nodup_append_of_part {l l' : List Symbol} {n : Nat} (h : l.Nodup) (h' : l'.Nodup)
    (hpart : ∀ s ∈ l, s.part < n) (hpart' : ∀ s ∈ l', s.part = n) : (l ++ l').Nodup := by
  refine List.nodup_append.2 ⟨h, h', fun s hs s' hs' heq => ?_⟩
  have hlt := hpart s hs
  rw [heq, hpart' s' hs'] at hlt
  exact Nat.lt_irrefl n hlt

theorem nodup_sourceSymbols {rests : List String} {entries members : List Entry}
    (hrests : (rests.map Symbol.code).Nodup) (h : (identifiers entries).Nodup) :
    (sourceSymbols rests entries members).Nodup := by
  have hindices : (members.zipIdx.map (·.2)).Nodup := by
    rw [List.zipIdx_map_snd]
    exact List.nodup_range'
  have hentries : (entries.flatMap Entry.symbols).Nodup :=
    nodup_flatMap_of_key nodup_symbols (fun _ _ => identifier?_of_mem_symbols) h
  have hmembers : (members.zipIdx.flatMap fun x => x.1.memberSymbols x.2).Nodup :=
    nodup_flatMap_of_key (fun x : Entry × Nat => nodup_memberSymbols x.2 x.1)
      (fun _ _ => index?_of_mem_memberSymbols) hindices
  have hcode : ∀ s ∈ rests.map Symbol.code, s.part = 0 := by
    simp [Symbol.part]
  have hentry : ∀ s ∈ entries.flatMap Entry.symbols, s.part = 1 := by
    intro s hs
    obtain ⟨e, -, hs⟩ := List.mem_flatMap.1 hs
    exact Symbol.part_of_identifier? (identifier?_of_mem_symbols hs)
  have hmember : ∀ s ∈ members.zipIdx.flatMap fun x => x.1.memberSymbols x.2, s.part = 2 := by
    intro s hs
    obtain ⟨x, -, hs⟩ := List.mem_flatMap.1 hs
    exact Symbol.part_of_index? (index?_of_mem_memberSymbols hs)
  rw [sourceSymbols]
  refine nodup_append_of_part (nodup_append_of_part (nodup_append_of_part hrests hentries ?_ hentry)
    hmembers ?_ hmember) (List.nodup_singleton _) ?_ (List.forall_mem_singleton.2 rfl)
  · exact fun s hs => hcode s hs ▸ Nat.one_pos
  · exact List.forall_mem_append.2
      ⟨fun s hs => hcode s hs ▸ Nat.two_pos, fun s hs => hentry s hs ▸ Nat.one_lt_two⟩
  · show ∀ s : Symbol, s ∈ _ → s.part < 3
    exact List.forall_mem_append.2 ⟨List.forall_mem_append.2
      ⟨fun s hs => by rw [hcode s hs]; decide, fun s hs => by rw [hentry s hs]; decide⟩,
      fun s hs => by rw [hmember s hs]; decide⟩

end FlashStrings
