import FlashStrings.Path
import FlashStrings.Proofs.Text.Trim

/-!
# Paths that only go down

A *straight* path is absolute and never leads through `..`, so its names say where
it leads, whatever the tree of files is.  Straight paths are the same path just
when they have the same names (`Path.Straight.sameAs_iff`), and a straight path
keeps its names when it is taken relative to a base and joined to it again
(`Path.Straight.join_relativeTo`).  With another name at its end it is straight
as well (`Path.Straight.withFileName`).

Of a path that leads up less is known: taken relative to an absolute base and joined to
it again it keeps its names if it is absolute (`Path.names_join_relativeTo`).
-/

namespace FlashStrings

namespace Path

/-! ## Texts between slashes -/

/-- A text that names a member of a directory. -/
structure IsName (text : String) : Prop where
  /-- It says something. -/
  notIdle : isIdle text = false
  /-- It does not lead up. -/
  notUp : text ≠ ".."
  /-- It is one component. -/
  noSlash : '/' ∉ text.toList

instance (text : String) : Decidable (IsName text) :=
  decidable_of_iff (isIdle text = false ∧ text ≠ ".." ∧ '/' ∉ text.toList)
    ⟨fun ⟨hidle, hup, hslash⟩ => ⟨hidle, hup, hslash⟩,
      fun ⟨hidle, hup, hslash⟩ => ⟨hidle, hup, hslash⟩⟩

theorem parts_append_slash (a b : String) :
    parts ⟨a ++ "/" ++ b⟩ = parts ⟨a⟩ ++ parts ⟨b⟩ := by
  have htext : (a ++ "/" ++ b).toList = a.toList ++ '/' :: b.toList := by simp
  rw [parts, htext, cutAt_append_cons, List.map_append]
  rfl

theorem parts_of_noSlash {text : String} (h : '/' ∉ text.toList) : parts ⟨text⟩ = [text] := by
  rw [parts, cutAt_of_notMem h, List.map_singleton, String.ofList_toList]

theorem noSlash_of_mem_parts {p : Path} {part : String} (h : part ∈ p.parts) :
    '/' ∉ part.toList := by
  obtain ⟨chars, hchars, rfl⟩ := List.mem_map.1 h
  rw [String.toList_ofList]
  exact notMem_of_mem_cutAt hchars

theorem parts_intercalate {texts : List String} (hne : texts ≠ [])
    (h : ∀ text ∈ texts, '/' ∉ text.toList) : parts ⟨"/".intercalate texts⟩ = texts := by
  have hparts : ∀ chars ∈ texts.map String.toList, '/' ∉ chars := by
    intro chars hchars
    obtain ⟨text, htext, rfl⟩ := List.mem_map.1 hchars
    exact h text htext
  have hslash : "/".toList = ['/'] := rfl
  rw [parts, String.toList_intercalate, hslash,
    cutAt_intercalate (fun he => hne (List.map_eq_nil_iff.1 he)) hparts, List.map_map]
  exact (List.map_congr_left fun text _ => String.ofList_toList).trans (List.map_id _)

/-- An absolute path begins with a text that says nothing. -/
theorem parts_of_isAbsolute {p : Path} (h : p.isAbsolute = true) :
    ∃ part parts, p.parts = "" :: part :: parts := by
  obtain ⟨chars, hchars⟩ : ∃ chars, p.text.toList = '/' :: chars :=
    List.head?_eq_some_iff.1 (by simpa [isAbsolute] using h)
  obtain ⟨part, parts, hcut⟩ := List.exists_cons_of_ne_nil (cutAt_ne_nil '/' chars)
  refine ⟨String.ofList part, parts.map String.ofList, ?_⟩
  rw [Path.parts, hchars, ← List.nil_append ('/' :: chars), cutAt_append_cons, hcut]
  rfl

/-- Only a slash leaves nothing in front of another text. -/
theorem isAbsolute_of_parts {p : Path} {part : String} {parts : List String}
    (h : p.parts = "" :: part :: parts) : p.isAbsolute = true := by
  rw [Path.parts] at h
  rw [isAbsolute]
  cases htext : p.text.toList with
  | nil =>
    rw [htext] at h
    cases h
  | cons c chars =>
    obtain ⟨first, rest, hcut⟩ := List.exists_cons_of_ne_nil (cutAt_ne_nil '/' chars)
    simp only [htext, cutAt, hcut] at h
    split at h
    · next hslash => rw [hslash]; rfl
    · have hfirst : String.ofList (c :: first) = "" := (List.cons.inj h).1
      have hnil := congrArg String.toList hfirst
      rw [String.toList_ofList] at hnil
      cases hnil

theorem text_ne_of_isAbsolute {p : Path} (h : p.isAbsolute = true) : p.text ≠ "" := by
  intro he
  rw [isAbsolute, he] at h
  cases h

/-! ## Joining -/

theorem join_of_isAbsolute (p : Path) {tail : String} (h : isAbsolute ⟨tail⟩ = true) :
    p.join tail = ⟨tail⟩ := by
  rw [join, h]
  rfl

/-- Behind a path stand the texts of the tail, in place of the nothing that
follows a slash at the end of the path. -/
theorem parts_join {p : Path} {tail : String} (hp : p.text ≠ "")
    (h : isAbsolute ⟨tail⟩ = false) :
    ∃ init, (p.parts = init ∨ p.parts = init ++ [""]) ∧
      (p.join tail).parts = init ++ parts ⟨tail⟩ := by
  have hempty : p.text.isEmpty = false := by simpa using hp
  rw [join, h, hempty, Bool.or_false, if_neg Bool.false_ne_true]
  split
  · next hslash =>
    obtain ⟨chars, hchars⟩ := List.getLast?_eq_some_iff.1 (beq_iff_eq.1 hslash)
    refine ⟨(cutAt '/' chars).map String.ofList, .inr ?_, ?_⟩
    · rw [parts, hchars, cutAt_append_cons, List.map_append]
      rfl
    · have htext : (p.text ++ tail).toList = chars ++ '/' :: tail.toList := by simp [hchars]
      rw [parts, htext, cutAt_append_cons, List.map_append]
      rfl
  · exact ⟨p.parts, .inl rfl, parts_append_slash p.text tail⟩

theorem isAbsolute_join {p : Path} (hp : p.isAbsolute = true) (tail : String) :
    (p.join tail).isAbsolute = true := by
  cases h : isAbsolute ⟨tail⟩ with
  | true => rwa [join_of_isAbsolute p h]
  | false =>
    obtain ⟨chars, hchars⟩ : ∃ chars, p.text.toList = '/' :: chars :=
      List.head?_eq_some_iff.1 (by simpa [isAbsolute] using hp)
    rw [join]
    split
    · next hor => simp [h, text_ne_of_isAbsolute hp] at hor
    · split <;> simp [isAbsolute, hchars]

/-! ## Straight paths -/

/-- The names that a path leads through, if it never leads up. -/
def names (p : Path) : List String := p.parts.filter (!isIdle ·)

/-- The path begins at the root and never leads up. -/
structure Straight (p : Path) : Prop where
  /-- It begins at the root. -/
  isAbsolute : p.isAbsolute = true
  /-- It does not lead up. -/
  notUp : ".." ∉ p.parts

instance (p : Path) : Decidable p.Straight :=
  decidable_of_iff (p.isAbsolute = true ∧ ".." ∉ p.parts)
    ⟨fun ⟨habsolute, hup⟩ => ⟨habsolute, hup⟩, fun ⟨habsolute, hup⟩ => ⟨habsolute, hup⟩⟩

namespace Straight

variable {p q base : Path} {tail : String}

theorem isName_of_mem_names (hp : p.Straight) {name : String} (h : name ∈ p.names) :
    IsName name := by
  obtain ⟨hmem, hidle⟩ := List.mem_filter.1 h
  exact ⟨by simpa using hidle, fun he => hp.notUp (he ▸ hmem), noSlash_of_mem_parts hmem⟩

theorem join (hp : p.Straight) (h : ".." ∉ parts ⟨tail⟩) : (p.join tail).Straight := by
  refine ⟨isAbsolute_join hp.isAbsolute tail, ?_⟩
  cases htail : Path.isAbsolute ⟨tail⟩ with
  | true => rwa [join_of_isAbsolute p htail]
  | false =>
    obtain ⟨init, hinit, hparts⟩ := parts_join (text_ne_of_isAbsolute hp.isAbsolute) htail
    have hup := hp.notUp
    rw [hparts, List.mem_append, not_or]
    refine ⟨fun hmem => hup ?_, h⟩
    rcases hinit with hinit | hinit
    · rwa [hinit]
    · rw [hinit]
      exact List.mem_append_left _ hmem

/-- A straight path with one more text is straight. -/
theorem join_of_noSlash (hp : p.Straight) (hslash : '/' ∉ tail.toList) (hup : tail ≠ "..") :
    (p.join tail).Straight := by
  refine hp.join ?_
  rw [parts_of_noSlash hslash, List.mem_singleton]
  exact Ne.symm hup

end Straight

theorem names_join {p : Path} {tail : String} (hp : p.text ≠ "")
    (h : isAbsolute ⟨tail⟩ = false) : (p.join tail).names = p.names ++ names ⟨tail⟩ := by
  obtain ⟨init, hinit, hparts⟩ := parts_join hp h
  rw [names, names, names, hparts, List.filter_append]
  rcases hinit with hinit | hinit
  · rw [hinit]
  · rw [hinit, List.filter_append]
    simp [isIdle]

theorem IsName.names_eq {name : String} (h : IsName name) : names ⟨name⟩ = [name] := by
  rw [names, parts_of_noSlash h.noSlash]
  simp [h.notIdle]

theorem isAbsolute_eq_false_of_noSlash {text : String} (h : '/' ∉ text.toList) :
    isAbsolute ⟨text⟩ = false := by
  cases htext : text.toList with
  | nil => simp [isAbsolute, htext]
  | cons c chars =>
    rw [htext] at h
    have hc : c ≠ '/' := fun he => h (he ▸ List.mem_cons_self)
    simp [isAbsolute, htext, hc]

/-- Texts that say something, with slashes between them, make a path of these names. -/
theorem names_intercalate {texts : List String} (hidle : ∀ text ∈ texts, isIdle text = false)
    (hslash : ∀ text ∈ texts, '/' ∉ text.toList) :
    isAbsolute ⟨"/".intercalate texts⟩ = false ∧ names ⟨"/".intercalate texts⟩ = texts := by
  cases texts with
  | nil => decide
  | cons text texts =>
    have hparts : parts ⟨"/".intercalate (text :: texts)⟩ = text :: texts :=
      parts_intercalate (List.cons_ne_nil _ _) hslash
    refine ⟨eq_false_of_ne_true fun habsolute => ?_, ?_⟩
    · obtain ⟨part, parts, hroot⟩ := parts_of_isAbsolute habsolute
      obtain ⟨rfl, -⟩ := List.cons.inj (hparts.symm.trans hroot)
      exact absurd (hidle "" List.mem_cons_self) (by decide)
    · rw [names, hparts]
      exact List.filter_eq_self.2 fun x hx => by simp [hidle x hx]

/-! ## Components -/

/-- The component that a text stands for, if it says something. -/
def component (part : String) : PathComponent := if part = ".." then .parent else .name part

theorem component_injective : Function.Injective component := by
  intro a b h
  rw [component, component] at h
  split at h <;> split at h
  · next ha hb => rw [ha, hb]
  · cases h
  · cases h
  · exact PathComponent.name.inj h

theorem isIdle_of_mem_names {p : Path} {name : String} (h : name ∈ p.names) :
    isIdle name = false := by
  simpa using (List.mem_filter.1 h).2

theorem noSlash_of_mem_names {p : Path} {name : String} (h : name ∈ p.names) :
    '/' ∉ name.toList := noSlash_of_mem_parts (List.mem_filter.1 h).1

/-- A path taken as a whole has its names behind the slash at the front. -/
theorem parts_wholePath (p : Path) : Path.isAbsolute ⟨"/".intercalate ("/" :: p.names)⟩ = true ∧
    parts ⟨"/".intercalate ("/" :: p.names)⟩ = "" :: "" :: p.names := by
  cases hnames : p.names with
  | nil => decide
  | cons name rest =>
    rw [String.intercalate_cons_cons, parts_append_slash, ← hnames,
      parts_intercalate (hnames ▸ List.cons_ne_nil _ _) fun _ => noSlash_of_mem_names]
    exact ⟨by simp [Path.isAbsolute], rfl⟩

section

variable {p base : Path} (hp : p.isAbsolute = true)

include hp

theorem components_eq_of_isAbsolute : p.components = .root :: p.names.map component := by
  obtain ⟨part, parts, hparts⟩ := parts_of_isAbsolute hp
  rw [components, hparts, names, hparts, List.filter_cons_of_neg (by decide)]
  rfl

theorem isBelow_iff_of_isAbsolute (hbase : base.isAbsolute = true) :
    p.isBelow base = true ↔ base.names <+: p.names := by
  rw [isBelow, List.isPrefixOf_iff_prefix, components_eq_of_isAbsolute hp,
    components_eq_of_isAbsolute hbase, List.cons_prefix_cons,
    List.prefix_map_iff_of_injective component_injective]
  exact and_iff_right rfl

/-- The text of a path taken relative to a base: the names below the base, or
the whole path. -/
theorem relativeTo_eq_of_isAbsolute (hbase : base.isAbsolute = true) : p.relativeTo base =
    "/".intercalate (if base.names <+: p.names then p.names.drop base.names.length
      else "/" :: p.names) := by
  have htexts : ∀ l : List String,
      ((l.map component).filter (· != .current)).map PathComponent.text = l := by
    intro l
    induction l with
    | nil => rfl
    | cons name l ih =>
      have hname : component name ≠ .current ∧ (component name).text = name := by
        rw [component]
        split
        · next hup => exact ⟨nofun, hup.symm⟩
        · exact ⟨nofun, rfl⟩
      rw [List.map_cons, List.filter_cons_of_pos (by simp [hname.1]), List.map_cons, hname.2, ih]
  have hbelow := isBelow_iff_of_isAbsolute hp hbase
  rw [relativeTo, components_eq_of_isAbsolute hp, components_eq_of_isAbsolute hbase]
  by_cases h : base.names <+: p.names
  · rw [if_pos (hbelow.2 h), if_pos h, List.length_cons, List.drop_succ_cons, List.length_map,
      ← List.map_drop, htexts]
  · rw [if_neg (mt hbelow.1 h), if_neg h, List.filter_cons_of_pos (by simp), List.map_cons, htexts]
    rfl

/-- A path taken relative to a base has the same names from there. -/
theorem names_join_relativeTo (hbase : base.isAbsolute = true) :
    (base.join (p.relativeTo base)).names = p.names := by
  rw [relativeTo_eq_of_isAbsolute hp hbase]
  split
  · next hbelow =>
    obtain ⟨rest, hrest⟩ := hbelow
    have hmem : ∀ name ∈ rest, name ∈ p.names := fun name hname =>
      hrest ▸ List.mem_append_right _ hname
    obtain ⟨habsolute, hnames⟩ := names_intercalate
      (fun name hname => isIdle_of_mem_names (hmem name hname))
      fun name hname => noSlash_of_mem_names (hmem name hname)
    rw [← hrest, List.drop_left, names_join (text_ne_of_isAbsolute hbase) habsolute, hnames]
  · obtain ⟨habsolute, hparts⟩ := p.parts_wholePath
    rw [join_of_isAbsolute base habsolute, names, hparts, List.filter_cons_of_neg (by decide),
      List.filter_cons_of_neg (by decide)]
    exact List.filter_eq_self.2 fun x hx => by simp [isIdle_of_mem_names hx]

end

namespace Straight

variable {p q base : Path}

theorem components_eq (hp : p.Straight) : p.components = .root :: p.names.map .name := by
  rw [components_eq_of_isAbsolute hp.isAbsolute]
  exact congrArg _ (List.map_congr_left fun x hx => if_neg (hp.isName_of_mem_names hx).notUp)

theorem components_eq_iff (hp : p.Straight) (hq : q.Straight) :
    p.components = q.components ↔ p.names = q.names := by
  rw [components_eq_of_isAbsolute hp.isAbsolute, components_eq_of_isAbsolute hq.isAbsolute,
    List.cons.injEq, List.map_inj_right fun _ _ h => component_injective h]
  exact and_iff_right rfl

theorem sameAs_iff (hp : p.Straight) (hq : q.Straight) :
    p.sameAs q = true ↔ p.names = q.names := by
  rw [sameAs, beq_iff_eq, hp.components_eq_iff hq]

theorem isBelow_iff (hp : p.Straight) (hbase : base.Straight) :
    p.isBelow base = true ↔ base.names <+: p.names :=
  isBelow_iff_of_isAbsolute hp.isAbsolute hbase.isAbsolute

/-- Only a straight path has the first components of a straight path. -/
theorem of_isPrefix (hp : p.Straight) (hne : base.components ≠ [])
    (h : base.components <+: p.components) : base.Straight := by
  rw [hp.components_eq] at h
  have hroot : base.components.head? = some .root := by
    obtain ⟨first, rest, hcomponents⟩ := List.exists_cons_of_ne_nil hne
    rw [hcomponents] at h ⊢
    rw [(List.cons_prefix_cons.1 h).1]
    rfl
  have hinner : ∀ parts : List String, (innerComponents parts).head? ≠ some .root := by
    intro parts hhead
    obtain ⟨part, -, heq⟩ := List.mem_map.1 (List.mem_of_head? hhead)
    split at heq <;> cases heq
  have hparent : PathComponent.parent ∉ base.components := by
    intro hmem
    have hmem := h.subset hmem
    simp at hmem
  rw [components] at hroot hparent
  split at hroot
  · next part parts hparts =>
    refine ⟨isAbsolute_of_parts hparts, fun hup => hparent ?_⟩
    rw [hparts] at hup
    have hup : ".." ∈ part :: parts := (List.mem_cons.1 hup).resolve_left (by decide)
    simp only [hparts]
    exact List.mem_cons_of_mem _ (List.mem_map.2
      ⟨"..", List.mem_filter.2 ⟨hup, by decide⟩, rfl⟩)
  · cases hroot
  · exact absurd hroot (hinner _)

theorem sameAs_iff_straight (hp : p.Straight) :
    p.sameAs q = true ↔ q.Straight ∧ q.names = p.names := by
  constructor
  · intro hsame
    have heq : q.components = p.components := (beq_iff_eq.1 hsame).symm
    have hne : q.components ≠ [] := by
      rw [heq, hp.components_eq]
      exact List.cons_ne_nil _ _
    have hq := hp.of_isPrefix hne (heq ▸ List.prefix_rfl)
    exact ⟨hq, (hq.components_eq_iff hp).1 heq⟩
  · rintro ⟨hq, hnames⟩
    exact (hp.sameAs_iff hq).2 hnames.symm

theorem isBelow_iff_straight (hp : p.Straight) (habsolute : base.isAbsolute = true) :
    p.isBelow base = true ↔ base.Straight ∧ base.names <+: p.names := by
  constructor
  · intro hbelow
    have hne : base.components ≠ [] := by
      obtain ⟨part, parts, hparts⟩ := parts_of_isAbsolute habsolute
      rw [components, hparts]
      exact List.cons_ne_nil _ _
    have hbase := hp.of_isPrefix hne (List.isPrefixOf_iff_prefix.1 hbelow)
    exact ⟨hbase, (hp.isBelow_iff hbase).1 hbelow⟩
  · rintro ⟨hbase, hprefix⟩
    exact (hp.isBelow_iff hbase).2 hprefix

/-- A path taken relative to a base is straight as well, and leads to the same names. -/
theorem join_relativeTo (hp : p.Straight) (hbase : base.Straight) :
    (base.join (p.relativeTo base)).Straight ∧
      (base.join (p.relativeTo base)).names = p.names := by
  have hnames := names_join_relativeTo hp.isAbsolute hbase.isAbsolute
  refine ⟨⟨isAbsolute_join hbase.isAbsolute _, fun hup => ?_⟩, hnames⟩
  have hmem : ".." ∈ (base.join (p.relativeTo base)).names := List.mem_filter.2 ⟨hup, by decide⟩
  exact (hp.isName_of_mem_names (hnames ▸ hmem)).notUp rfl

end Straight

/-! ## Above a path -/

theorem dropIdle_suffix (l : List String) : dropIdle l <:+ l := by
  induction l with
  | nil => exact List.suffix_rfl
  | cons part l ih =>
    cases l with
    | nil => exact List.suffix_rfl
    | cons next l =>
      rw [dropIdle]
      split
      · exact ih.trans (List.suffix_cons ..)
      · exact List.suffix_rfl

theorem dropIdle_ne_nil {l : List String} (h : l ≠ []) : dropIdle l ≠ [] := by
  induction l with
  | nil => exact absurd rfl h
  | cons part l ih =>
    cases l with
    | nil => exact h
    | cons next l =>
      rw [dropIdle]
      split
      · exact ih (List.cons_ne_nil _ _)
      · exact List.cons_ne_nil _ _

/-- What says something is not removed. -/
theorem mem_dropIdle {l : List String} {part : String} (h : part ∈ l)
    (hidle : isIdle part = false) : part ∈ dropIdle l := by
  induction l with
  | nil => cases h
  | cons first l ih =>
    cases l with
    | nil => exact h
    | cons next l =>
      rw [dropIdle]
      split
      · next hfirst =>
        refine ih ((List.mem_cons.1 h).resolve_left ?_)
        rintro rfl
        rw [hidle] at hfirst
        cases hfirst
      · exact h

namespace Straight

variable {p : Path}

/-- The first texts of a straight path make a straight path. -/
theorem ofReversedParts (hp : p.Straight) {texts : List String} (hne : texts ≠ [])
    (h : texts.reverse <+: p.parts) : (ofReversedParts texts).Straight := by
  obtain ⟨part, parts, hparts⟩ := parts_of_isAbsolute hp.isAbsolute
  obtain ⟨first, rest, hrest⟩ := List.exists_cons_of_ne_nil (mt List.reverse_eq_nil_iff.1 hne)
  obtain rfl : first = "" := by
    rw [hrest, hparts] at h
    exact (List.cons_prefix_cons.1 h).1
  cases rest with
  | nil =>
    obtain rfl : texts = [""] := List.reverse_eq_iff.1 hrest
    exact ⟨by decide, by decide⟩
  | cons second rest =>
    have hslash : ∀ text ∈ texts.reverse, '/' ∉ text.toList := fun text htext =>
      noSlash_of_mem_parts (h.subset htext)
    have htexts : Path.ofReversedParts texts = ⟨"/".intercalate texts.reverse⟩ := by
      rw [Path.ofReversedParts]
      rintro rfl
      cases hrest
    rw [htexts]
    refine ⟨?_, fun hup => hp.notUp (h.subset ?_)⟩
    · rw [hrest, String.intercalate_cons_cons]
      simp [Path.isAbsolute]
    · rwa [parts_intercalate (mt List.reverse_eq_nil_iff.1 hne) hslash] at hup

/-- Above a straight path with a name is a straight path. -/
theorem parent? (hp : p.Straight) (hne : p.names ≠ []) :
    ∃ above, p.parent? = some above ∧ above.Straight := by
  obtain ⟨name, hname⟩ := List.exists_mem_of_ne_nil _ hne
  obtain ⟨hmem, -⟩ := List.mem_filter.1 hname
  have hmem := mem_dropIdle (List.mem_reverse.2 hmem) (hp.isName_of_mem_names hname).notIdle
  obtain ⟨init, hinit⟩ := dropIdle_suffix p.parts.reverse
  rw [Path.parent?]
  obtain ⟨last, texts, htexts⟩ := List.exists_cons_of_ne_nil (List.ne_nil_of_mem hmem)
  rw [htexts] at hmem hinit ⊢
  cases texts with
  | nil =>
    -- the only text of the path left is the nothing before the first slash
    obtain ⟨part, parts, hparts⟩ := parts_of_isAbsolute hp.isAbsolute
    rw [hparts, List.reverse_cons] at hinit
    obtain ⟨-, hlast⟩ := List.append_inj' hinit rfl
    rw [hlast, List.mem_singleton] at hmem
    rw [hmem] at hname
    exact absurd (hp.isName_of_mem_names hname).notIdle (by decide)
  | cons next texts =>
    refine ⟨Path.ofReversedParts (dropIdle (next :: texts)), by simp,
      hp.ofReversedParts (dropIdle_ne_nil (List.cons_ne_nil _ _)) ?_⟩
    have hsuffix : dropIdle (next :: texts) <:+ p.parts.reverse :=
      (dropIdle_suffix _).trans ⟨init ++ [last], by rw [← hinit, List.append_assoc]; rfl⟩
    rw [← List.reverse_suffix, List.reverse_reverse]
    exact hsuffix

/-- A straight path ends with its last name. -/
theorem fileName?_eq (hp : p.Straight) : p.fileName? = p.names.getLast? := by
  rw [fileName?, hp.components_eq]
  cases hlast : p.names.getLast? with
  | none =>
    rw [List.getLast?_eq_none_iff.1 hlast]
    rfl
  | some name =>
    obtain ⟨init, hinit⟩ := List.getLast?_eq_some_iff.1 hlast
    rw [hinit, List.map_append, List.map_singleton, ← List.cons_append, List.getLast?_concat]

/-- A straight path stays straight when its last name is replaced. -/
theorem withFileName (hp : p.Straight) {name : String} (h : ".." ∉ parts ⟨name⟩) :
    (p.withFileName name).Straight := by
  rw [Path.withFileName]
  split
  · next hname =>
    have hne : p.names ≠ [] := by
      rw [hp.fileName?_eq] at hname
      rintro hnil
      simp [hnil] at hname
    obtain ⟨above, habove, hstraight⟩ := hp.parent? hne
    rw [habove]
    exact hstraight.join h
  · exact hp.join h

end Straight

end Path

end FlashStrings
