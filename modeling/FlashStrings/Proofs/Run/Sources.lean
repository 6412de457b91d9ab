import FlashStrings.Proofs.Run.Order
import FlashStrings.Proofs.SourceFiles

/-!
# Each source once

The sources are compared by their components, as are the files that are left out, and
only a path without `..` says by its components where it leads.  So if no include leads
up, the list of sources has each file once that is at or below an include and is not
left out, and no other (`SourceSettings.listsSources_files`).  A path that does lead up
leaves nothing out (`Path.Straight.sameAs_iff_straight`), and an include that does so
brings files in a second time, and files that are left out, or misses a file
(`Project.leadsUp_examples`).
-/

namespace FlashStrings

open FlashStrings.Path (IsName)
open FileTree (Alike Agree Under)

variable {t : FileTree} {p q r : Path}

/-! ## Below a path -/

namespace FileTree

/-- Above something there is something. -/
theorem Sound.isSome_of_isPrefix (ht : t.Sound) {place below : List String}
    (h : place <+: below) (hbelow : (t.node? below).isSome = true) :
    (t.node? place).isSome = true := by
  rcases eq_or_ne place below with rfl | hne
  · exact hbelow
  · rw [ht.isDirectory_of_isPrefix h hne hbelow]
    rfl

theorem Under.congr (h : t.Under p q) (hr : r.Straight) (hnames : q.names = r.names) :
    t.Under p r :=
  ⟨hr, h.leads, hnames ▸ h.above, hnames ▸ h.isFile⟩

theorem Under.has (h : t.Under p r) (ht : t.Sound) : t.has p = true := by
  rw [FileTree.has, find?, h.leads]
  exact ht.isSome_of_isPrefix h.above h.isSome

/-- The files at and below a path, by their names. -/
theorem exists_mem_files_iff (ht : t.Sound) (hp : p.Straight) (hr : r.Straight) :
    (∃ q ∈ t.files p, q.names = r.names) ↔ t.Under p r := by
  constructor
  · rintro ⟨q, hq, hnames⟩
    have ha : Alike t t fun _ => true := ⟨ht, ht, fun _ _ _ => rfl⟩
    exact ((Agree.files ha).under p hp q hq).congr hr hnames
  · intro h
    obtain ⟨rest, hrest⟩ := h.above
    obtain ⟨content, hfile⟩ := h.isFile
    rw [← hrest] at hfile
    have hnames : ∀ name ∈ rest, IsName name := fun name hname =>
      ht.isName _ (by rw [hfile]; rfl) name (List.mem_append_right _ hname)
    refine ⟨rest.foldl Path.join p, ?_, (straight_foldl_join hp hnames).2.trans hrest⟩
    have hne : p.names ++ rest ≠ [] := by
      intro hnil
      rw [hnil] at hfile
      cases hfile
    have hbelow : (rest, Node.file content) ∈ t.below p.names :=
      mem_below.2 (ht.get?_eq_some_iff.2 ⟨hne, hfile⟩)
    rw [files, walk, h.leads]
    exact List.mem_filterMap.2 ⟨_, List.mem_map.2 ⟨_, hbelow, rfl⟩, rfl⟩

theorem isName_of_mem_members (ht : t.Sound) {name : String} (h : name ∈ t.members p) :
    IsName name := by
  rw [members] at h
  split at h
  · cases h
  · next place _ =>
    obtain ⟨⟨names, node⟩, hbelow, hname⟩ := List.mem_filterMap.1 h
    have hnode := (ht.get?_eq_some_iff.1 (mem_below.1 hbelow)).2
    cases names with
    | nil => cases hname
    | cons only names =>
      cases names with
      | nil =>
        obtain rfl := Option.some.inj hname
        exact ht.isName _ (by rw [hnode]; rfl) _ (by simp)
      | cons _ _ => cases hname

theorem straight_of_mem_descendants (ht : t.Sound) (hp : p.Straight)
    (h : q ∈ t.descendants p) : q.Straight := by
  rw [descendants] at h
  split at h
  · cases h
  · next place _ =>
    obtain ⟨⟨names, node⟩, hbelow, hq⟩ := List.mem_filterMap.1 h
    have hnode := (ht.get?_eq_some_iff.1 (mem_below.1 hbelow)).2
    have hnames : ∀ name ∈ names, IsName name := fun name hname =>
      ht.isName _ (by rw [hnode]; rfl) name (List.mem_append_right _ hname)
    simp only at hq
    split at hq
    · cases hq
    · obtain rfl := Option.some.inj hq
      exact (straight_foldl_join hp hnames).1

end FileTree

/-! ## What patterns find -/

namespace Glob

open PathPattern (dots)

/-- Patterns that do not lead up find straight paths. -/
theorem straight_of_mem_expand (ht : t.Sound) (patterns : List PathPattern)
    (hflat : ∀ x ∈ patterns, x.Flat) (hp : p.Straight) (h : q ∈ expand t patterns p) :
    q.Straight := by
  fun_induction expand t patterns p with
  | case1 p =>
    obtain rfl := List.mem_singleton.1 h
    exact hp
  | case2 text patterns p found _ ih =>
    obtain ⟨htext, hrest⟩ := List.forall_mem_cons.1 hflat
    exact ih hrest (hp.join_of_noSlash (htext.noSlash text rfl) htext.notUp) h
  | case3 | case5 => cases h
  | case4 tokens patterns p _ names ih =>
    obtain ⟨htokens, hrest⟩ := List.forall_mem_cons.1 hflat
    obtain ⟨name, hname, hq⟩ := List.mem_flatMap.1 h
    refine ih name hrest ?_ hq
    rcases List.mem_append.1 hname with hdot | hmember
    · have hup : name ≠ ".." := fun he => htokens.notUp (show ".." ∈ dots tokens from he ▸ hdot)
      obtain rfl := (eq_of_mem_dots hdot).resolve_left hup
      exact hp.join_of_noSlash (by decide) hup
    · have hproper := FileTree.isName_of_mem_members ht (List.mem_of_mem_filter hmember)
      exact hp.join_of_noSlash hproper.noSlash hproper.notUp
  | case6 p =>
    exact FileTree.straight_of_mem_descendants ht hp (List.mem_of_mem_filter h)
  | case7 pattern patterns p ih =>
    obtain ⟨x, hx, hq⟩ := List.mem_flatMap.1 h
    split at hq
    · exact ih x (fun y hy => hflat y (List.mem_cons_of_mem _ (List.mem_cons_of_mem _ hy)))
        (FileTree.straight_of_mem_descendants ht hp hx) hq
    · cases hq

theorem straight_of_mem_find (ht : t.Sound) {pattern : Path} {components : List PathPattern}
    (h : patterns pattern = .ok components) (hup : ∀ x ∈ components, ¬x.LeadsUp)
    {found : List Path} (hfound : find t pattern = .ok found) (hq : q ∈ found) : q.Straight := by
  rw [find_eq, h] at hfound
  obtain rfl := Except.ok.inj hfound
  have hstraight := SourceSettings.straight_slash
  split at hq
  · exact straight_of_mem_expand ht _ (flat_of_patterns h hup) hstraight (List.mem_of_mem_filter hq)
  · exact straight_of_mem_expand ht _ (flat_of_patterns h hup) hstraight hq

end Glob

/-! ## Paths below the base -/

namespace FileTree

theorem Sound.follow_names (ht : t.Sound) {place names : List String}
    (h : (t.node? (place ++ names)).isSome = true) :
    t.follow place names = some (place ++ names) := by
  induction names generalizing place with
  | nil => rw [List.append_nil]; rfl
  | cons name names ih =>
    have hname : IsName name := ht.isName _ h name (by simp)
    have hdir : t.node? place = some .directory :=
      ht.isDirectory_of_isPrefix (List.prefix_append ..) (by simp) h
    rw [follow, if_pos hdir, hname.notIdle, if_neg Bool.false_ne_true, if_neg hname.notUp,
      ih (by simpa using h), List.append_assoc]
    rfl

/-- The path of a file taken relative to a directory leads to the file from there. -/
theorem Sound.under_join_relativeTo (ht : t.Sound) {base : Path} (hbase : base.Straight)
    (hdir : t.hasDirectory base = true) (hr : r.Straight)
    (hfile : ∃ content, t.node? r.names = some (.file content)) :
    t.Under (base.join (r.relativeTo base)) (base.join (r.relativeTo base)) := by
  obtain ⟨hstraight, hnames⟩ := hr.join_relativeTo hbase
  have hsome : (t.node? r.names).isSome = true := by
    obtain ⟨content, hnode⟩ := hfile
    rw [hnode]
    rfl
  have hplace : t.resolve? base = some base.names ∧ t.node? base.names = some .directory := by
    rw [hasDirectory, beq_iff_eq, find?] at hdir
    obtain ⟨place, hplace, hnode⟩ := Option.bind_eq_some_iff.1 hdir
    obtain rfl := resolve?_eq_some hbase hplace
    exact ⟨hplace, hnode⟩
  refine ⟨hstraight, ?_, List.prefix_rfl, by rwa [hnames]⟩
  rw [hnames, Path.relativeTo_eq_of_isAbsolute hr.isAbsolute hbase.isAbsolute]
  split
  · next hbelow =>
    obtain ⟨rest, hrest⟩ := hbelow
    rw [← hrest, List.drop_left]
    rw [← hrest] at hsome hfile
    have hname : ∀ name ∈ rest, IsName name := fun name hname =>
      ht.isName _ hsome name (List.mem_append_right _ hname)
    have hne : rest ≠ [] := by
      rintro rfl
      obtain ⟨content, hnode⟩ := hfile
      rw [List.append_nil, hplace.2] at hnode
      cases hnode
    have hparts := Path.parts_intercalate hne fun name hmem => (hname name hmem).noSlash
    have habsolute := (Path.names_intercalate (fun name hmem => (hname name hmem).notIdle)
      fun name hmem => (hname name hmem).noSlash).1
    rw [resolve?_join t hbase.isAbsolute habsolute, hparts, hplace.1]
    exact ht.follow_names hsome
  · obtain ⟨habsolute, hparts⟩ := r.parts_wholePath
    have hslash : ∀ parts, t.follow [] ("" :: parts) = t.follow [] parts := fun parts => by
      rw [follow, if_pos t.node?_nil, if_pos (by decide)]
    rw [Path.join_of_isAbsolute base habsolute, resolve?_of_isAbsolute t habsolute, hparts,
      hslash, hslash]
    exact ht.follow_names (show (t.node? ([] ++ r.names)).isSome = true from hsome)

end FileTree

/-! ## Sources -/

namespace SourceSettings

variable {s : SourceSettings}

theorem straight_of_mem_roots (ht : t.Sound) (hbase : s.base.Straight) (h : s.Descends)
    (hq : q ∈ s.roots t) : q.Straight := by
  rw [roots] at hq
  split at hq
  · obtain rfl := List.mem_singleton.1 hq
    exact hbase
  · obtain ⟨text, htext, hq⟩ := List.mem_flatMap.1 hq
    have hinclude := h text htext
    rw [IncludeDescends] at hinclude
    rw [root] at hq
    split at hinclude
    · next hpattern =>
      rw [if_pos hpattern] at hq
      cases hfound : Glob.find t (s.base.join text) with
      | error e =>
        rw [hfound] at hq
        cases hq
      | ok found =>
        rw [hfound] at hq
        cases hpatterns : Glob.patterns (s.base.join text) with
        | error e =>
          rw [Glob.find_eq, hpatterns] at hfound
          cases hfound
        | ok components =>
          exact Glob.straight_of_mem_find ht hpatterns (hinclude components hpatterns) hfound hq
    · next hpattern =>
      rw [if_neg hpattern] at hq
      split at hq
      · obtain rfl := List.mem_singleton.1 hq
        exact ⟨Path.isAbsolute_join hbase.isAbsolute text, hinclude⟩
      · cases hq

/-- A file at or below an include, or at or below the base if there are none. -/
def Reaches (s : SourceSettings) (t : FileTree) (r : Path) : Prop :=
  if s.includes.isEmpty then t.Under s.base r
  else ∃ text ∈ s.includes,
    if Glob.isPattern text then
      ∃ found, Glob.find t (s.base.join text) = .ok found ∧ ∃ q ∈ found, t.Under q r
    else t.Under (s.base.join text) r

/-- A file that is a source.  Paths that lead up leave nothing out. -/
structure IsSource (s : SourceSettings) (t : FileTree) (r : Path) : Prop where
  /-- It is found. -/
  reaches : s.Reaches t r
  /-- It has one of the extensions. -/
  hasExtension : s.hasExtension r = true
  /-- It is none of the excluded files. -/
  notExcluded : ∀ x ∈ s.excluded, x.Straight → x.names ≠ r.names
  /-- It is not at or below an ignored path. -/
  notBelow : ∀ text ∈ s.ignores, Glob.isPattern text = false → (s.base.join text).Straight →
    ¬(s.base.join text).names <+: r.names
  /-- Its path from the base matches no ignored pattern. -/
  notMatched : ∀ text ∈ s.ignores, Glob.isPattern text = true → ∀ tokens,
    Glob.parse text = .ok tokens → Glob.matchesString tokens (r.relativeTo s.base) = false

theorem exists_mem_roots_iff (ht : t.Sound) :
    (∃ q ∈ s.roots t, t.Under q r) ↔ s.Reaches t r := by
  have hroot : ∀ text, (∃ q ∈ (s.root t text).1, t.Under q r) ↔
      if Glob.isPattern text then
        ∃ found, Glob.find t (s.base.join text) = .ok found ∧ ∃ q ∈ found, t.Under q r
      else t.Under (s.base.join text) r := by
    intro text
    rw [root]
    split
    · cases hfound : Glob.find t (s.base.join text) with
      | error e => simp
      | ok found => simp
    · split
      · simp
      · next hnone =>
        constructor
        · rintro ⟨q, hq, -⟩
          cases hq
        · exact fun hunder => absurd (hunder.has ht) hnone
  rw [roots, Reaches]
  split
  · simp
  · simp only [← hroot, List.mem_flatMap]
    constructor
    · rintro ⟨q, ⟨text, htext, hq⟩, hunder⟩
      exact ⟨text, htext, q, hq, hunder⟩
    · rintro ⟨text, htext, q, hq, hunder⟩
      exact ⟨q, ⟨text, htext, hq⟩, hunder⟩

theorem exists_mem_listed_iff (ht : t.Sound) (hbase : s.base.Straight) (h : s.Descends)
    (hr : r.Straight) : (∃ q ∈ s.listed t, q.names = r.names) ↔ s.Reaches t r := by
  rw [← exists_mem_roots_iff ht, listed]
  constructor
  · rintro ⟨q, hq, hnames⟩
    obtain ⟨p, hp, hq⟩ := List.mem_flatMap.1 hq
    have hstraight := straight_of_mem_roots ht hbase h hp
    exact ⟨p, hp, (FileTree.exists_mem_files_iff ht hstraight hr).1 ⟨q, hq, hnames⟩⟩
  · rintro ⟨p, hp, hunder⟩
    have hstraight := straight_of_mem_roots ht hbase h hp
    obtain ⟨q, hq, hnames⟩ := (FileTree.exists_mem_files_iff ht hstraight hr).2 hunder
    exact ⟨q, List.mem_flatMap.2 ⟨p, hp, hq⟩, hnames⟩

/-- Whether a file is left out follows from its components. -/
theorem admits_congr (h : q.components = r.components) : s.admits q = s.admits r := by
  have hextension : q.extension? = r.extension? := by
    rw [Path.extension?, Path.extension?, Path.fileName?, Path.fileName?, h]
  have hsame : q.sameAs = r.sameAs := funext fun x => by rw [Path.sameAs, Path.sameAs, h]
  have hbelow : q.isBelow = r.isBelow := funext fun x => by rw [Path.isBelow, Path.isBelow, h]
  have hrelative : q.relativeTo s.base = r.relativeTo s.base := by
    rw [Path.relativeTo, Path.relativeTo, hbelow, h]
  simp only [admits, hasExtension, isIgnored, hextension, hsame, hbelow, hrelative]

/-- What it means for a straight path that it is not left out. -/
theorem admits_iff (hbase : s.base.Straight) (hr : r.Straight) : s.admits r = true ↔
    s.hasExtension r = true ∧ (∀ x ∈ s.excluded, x.Straight → x.names ≠ r.names) ∧
      (∀ text ∈ s.ignores, Glob.isPattern text = false → (s.base.join text).Straight →
        ¬(s.base.join text).names <+: r.names) ∧
      ∀ text ∈ s.ignores, Glob.isPattern text = true → ∀ tokens,
        Glob.parse text = .ok tokens → Glob.matchesString tokens (r.relativeTo s.base) = false := by
  have hexcluded : s.excluded.any r.sameAs = false ↔
      ∀ x ∈ s.excluded, x.Straight → x.names ≠ r.names := by
    simp only [List.any_eq_false, hr.sameAs_iff_straight, not_and, ne_eq]
  have hignored : s.isIgnored r = false ↔
      (∀ text ∈ s.ignores, Glob.isPattern text = false → (s.base.join text).Straight →
        ¬(s.base.join text).names <+: r.names) ∧
      ∀ text ∈ s.ignores, Glob.isPattern text = true → ∀ tokens,
        Glob.parse text = .ok tokens →
          Glob.matchesString tokens (r.relativeTo s.base) = false := by
    rw [isIgnored, List.any_eq_false]
    constructor
    · intro hnone
      refine ⟨fun text htext hliteral hstraight hprefix => ?_,
        fun text htext hpattern tokens htokens => ?_⟩
      · have hbelow := hnone text htext
        rw [if_neg (by simp [hliteral])] at hbelow
        exact hbelow ((hr.isBelow_iff hstraight).2 hprefix)
      · have hmatch := hnone text htext
        rw [if_pos hpattern, htokens] at hmatch
        simpa using hmatch
    · rintro ⟨hbelow, hmatch⟩ text htext
      split
      · next hpattern =>
        cases htokens : Glob.parse text with
        | ok tokens => simpa using hmatch text htext hpattern tokens htokens
        | error e => simp
      · next hliteral =>
        rw [hr.isBelow_iff_straight (Path.isAbsolute_join hbase.isAbsolute text)]
        rintro ⟨hstraight, hprefix⟩
        exact hbelow text htext (by simpa using hliteral) hstraight hprefix
  rw [admits, Bool.and_eq_true, Bool.and_eq_true, Bool.not_eq_true', Bool.not_eq_true', hexcluded,
    hignored, and_assoc]

/-! ### The list -/

/-- The paths are those of the sources, each source once. -/
structure ListsSources (s : SourceSettings) (t : FileTree) (files : List String) : Prop where
  /-- Every path leads to a file. -/
  leads : ∀ file ∈ files, t.Under (s.base.join file) (s.base.join file)
  /-- No two of them lead to one place. -/
  once : files.Pairwise fun file other =>
    t.resolve? (s.base.join file) ≠ t.resolve? (s.base.join other)
  /-- They lead to the sources and nowhere else. -/
  sources : ∀ r : Path, r.Straight →
    ((∃ file ∈ files, t.resolve? (s.base.join file) = some r.names) ↔ s.IsSource t r)

/-- A path that is listed leads to a file that was found. -/
structure LeadsTo (s : SourceSettings) (t : FileTree) (file : String) (q : Path) : Prop where
  straight : q.Straight
  listed : q ∈ s.listed t
  admits : s.admits q = true
  file_eq : file = q.relativeTo s.base
  /-- The path leads there from the base. -/
  resolve?_eq : t.resolve? (s.base.join file) = some q.names
  under : t.Under (s.base.join file) (s.base.join file)

section

variable (ht : t.Sound) (hbase : s.base.Straight) (hdir : t.hasDirectory s.base = true)
  (h : s.Descends)

include ht hbase hdir h

theorem exists_leadsTo {file : String} (hfile : file ∈ s.files t) : ∃ q, s.LeadsTo t file q := by
  obtain ⟨q, hq, hadmits, rfl⟩ := mem_files.1 hfile
  obtain ⟨p, hunder⟩ := under_of_mem_listed ht hbase h hq
  have hleads := ht.under_join_relativeTo hbase hdir hunder.straight hunder.isFile
  refine ⟨q, hunder.straight, hq, hadmits, rfl, ?_, hleads⟩
  rw [hleads.leads, (hunder.straight.join_relativeTo hbase).2]

theorem eq_of_resolve?_eq {file other : String} (hfile : file ∈ s.files t)
    (hother : other ∈ s.files t)
    (hsame : t.resolve? (s.base.join file) = t.resolve? (s.base.join other)) : file = other := by
  obtain ⟨q, hq⟩ := exists_leadsTo ht hbase hdir h hfile
  obtain ⟨q', hq'⟩ := exists_leadsTo ht hbase hdir h hother
  rw [hq.resolve?_eq, hq'.resolve?_eq, Option.some.injEq] at hsame
  rw [hq.file_eq, hq'.file_eq,
    Path.relativeTo_eq_of_isAbsolute hq.straight.isAbsolute hbase.isAbsolute,
    Path.relativeTo_eq_of_isAbsolute hq'.straight.isAbsolute hbase.isAbsolute, hsame]

/-- The list has the files that are found and not left out. -/
theorem exists_mem_files_iff (hr : r.Straight) :
    (∃ file ∈ s.files t, t.resolve? (s.base.join file) = some r.names) ↔
      s.Reaches t r ∧ s.admits r = true := by
  rw [← exists_mem_listed_iff ht hbase h hr]
  constructor
  · rintro ⟨file, hfile, hplace⟩
    obtain ⟨q, hq⟩ := exists_leadsTo ht hbase hdir h hfile
    have hnames : q.names = r.names := Option.some.inj (hq.resolve?_eq.symm.trans hplace)
    have hsame := (hq.straight.components_eq_iff hr).2 hnames
    exact ⟨⟨q, hq.listed, hnames⟩, admits_congr hsame ▸ hq.admits⟩
  · rintro ⟨⟨q, hq, hnames⟩, hadmits⟩
    obtain ⟨p, hunder⟩ := under_of_mem_listed ht hbase h hq
    have hsame := (hunder.straight.components_eq_iff hr).2 hnames
    have hleads := ht.under_join_relativeTo hbase hdir hunder.straight hunder.isFile
    refine ⟨_, mem_files.2 ⟨q, hq, (admits_congr hsame).trans hadmits, rfl⟩, ?_⟩
    rw [hleads.leads, (hunder.straight.join_relativeTo hbase).2, hnames]

theorem listsSources_files : s.ListsSources t (s.files t) where
  leads file hfile := by
    obtain ⟨q, hq⟩ := exists_leadsTo ht hbase hdir h hfile
    exact hq.under
  once := (nodup_eraseDups _).imp_of_mem fun {_ _} hfile hother hne hsame =>
    hne (eq_of_resolve?_eq ht hbase hdir h hfile hother hsame)
  sources r hr := by
    rw [exists_mem_files_iff ht hbase hdir h hr, admits_iff hbase hr]
    constructor
    · rintro ⟨hreaches, hextension, hexcluded, hbelow, hmatched⟩
      exact ⟨hreaches, hextension, hexcluded, hbelow, hmatched⟩
    · rintro ⟨hreaches, hextension, hexcluded, hbelow, hmatched⟩
      exact ⟨hreaches, hextension, hexcluded, hbelow, hmatched⟩

end

end SourceSettings

/-! ### The sources of a project -/

namespace Project

variable {p : Project}

/-- The sources of a project are listed once each.  The generated files are none of them,
and neither are the files at and below an ignored path. -/
theorem listsSources (ht : t.Sound) (hroot : p.root.Straight)
    (hdir : t.hasDirectory p.root = true) (h : p.sources.Descends) :
    p.sources.ListsSources t (p.sources.files t) ∧ ∀ file ∈ p.sources.files t,
      (∀ output ∈ [p.declarationPath, p.definitionPath], output.Straight →
        t.resolve? (p.root.join file) ≠ t.resolve? output) ∧
      ∀ text ∈ p.config.ignores, Glob.isPattern text = false → (p.root.join text).Straight →
        ¬t.Under (p.root.join text) (p.root.join file) := by
  have hlists := SourceSettings.listsSources_files ht hroot hdir h
  refine ⟨hlists, fun file hfile => ?_⟩
  have hunder : t.Under (p.root.join file) (p.root.join file) := hlists.leads file hfile
  have hsource := (hlists.sources _ hunder.straight).1 ⟨file, hfile, hunder.leads⟩
  constructor
  · intro output houtput hstraight hsame
    rw [hunder.leads] at hsame
    exact hsource.notExcluded output houtput hstraight
      (FileTree.resolve?_eq_some hstraight hsame.symm).symm
  · intro text htext hliteral hstraight hignored
    exact hsource.notBelow text htext hliteral hstraight hignored.above

/-- Sources in several directories, with a generated header among them. -/
def nestedTree : FileTree where
  nodes := .ofList [(["p"], .directory), (["p", "lib"], .directory),
    (["p", "lib", "b.h"], .file []), (["p", "src"], .directory),
    (["p", "src", "a.cpp"], .file []), (["p", "src", "generated"], .directory),
    (["p", "src", "generated", "x.h"], .file []), (["p", "src", "vendor"], .directory),
    (["p", "src", "vendor", "v.c"], .file [])]

theorem sound_nestedTree : nestedTree.Sound := .of_entries rfl (by decide +kernel)

/-- A project over these sources. -/
def nested (includes ignores : List String) (header : String) : Project :=
  { root := ⟨"/p"⟩, config := { includes, ignores, declarationFile := header } }

/-- The includes overlap. -/
def overlapping : Project := nested ["src", "./lib", "src/./a.cpp", "l*"] ["src/vendor"] "x.h"

theorem descends_overlapping : overlapping.sources.Descends := by
  have hliterals : ∀ text ∈ ["src", "./lib", "src/./a.cpp"], Glob.isPattern text = false ∧
      ".." ∉ (overlapping.root.join text).parts := by decide +kernel
  have hpatterns : Glob.patterns (overlapping.root.join "l*") =
      .ok [.plain "p", .wild [.char 'l', .anySequence]] := by decide +kernel
  intro text htext
  rcases List.mem_append.1 (show text ∈ ["src", "./lib", "src/./a.cpp"] ++ ["l*"] from htext) with
    hliteral | hpattern
  · obtain ⟨hnone, hparts⟩ := hliterals text hliteral
    rw [SourceSettings.IncludeDescends, if_neg (by rw [hnone]; exact Bool.false_ne_true)]
    exact hparts
  · obtain rfl := List.mem_singleton.1 hpattern
    rw [SourceSettings.IncludeDescends, if_pos (by decide)]
    intro components hcomponents
    obtain rfl := Except.ok.inj (hpatterns.symm.trans hcomponents)
    decide

theorem listsSources_overlapping : nestedTree.Sound ∧ overlapping.sources.Descends ∧
    overlapping.sources.files nestedTree = ["src/a.cpp", "lib/b.h"] ∧
    overlapping.sources.ListsSources nestedTree ["src/a.cpp", "lib/b.h"] := by
  have hfiles : overlapping.sources.files nestedTree = ["src/a.cpp", "lib/b.h"] := by
    decide +kernel
  have hlists := listsSources sound_nestedTree (by decide) (by decide +kernel) descends_overlapping
  exact ⟨sound_nestedTree, descends_overlapping, hfiles, hfiles ▸ hlists.1⟩

/-! ### Paths that lead up -/

/-- Two of the listed paths lead to one place. -/
def ListsTwice (p : Project) (t : FileTree) : Prop :=
  ∃ file ∈ p.sources.files t, ∃ other ∈ p.sources.files t, file ≠ other ∧
    (t.resolve? (p.root.join file)).isSome = true ∧
    t.resolve? (p.root.join file) = t.resolve? (p.root.join other)

/-- One of the listed paths leads to a generated file. -/
def ListsOutput (p : Project) (t : FileTree) : Prop :=
  ∃ file ∈ p.sources.files t, ∃ output ∈ [p.declarationPath, p.definitionPath],
    (t.resolve? (p.root.join file)).isSome = true ∧
    t.resolve? (p.root.join file) = t.resolve? output

/-- The first path leads to where the second one leads, or to a place below. -/
def leadsBelow (t : FileTree) (q above : Path) : Bool :=
  (t.resolve? above).any fun place => (t.resolve? q).any fun below => place.isPrefixOf below

/-- One of the listed paths leads to a file below an ignored directory. -/
def ListsIgnored (p : Project) (t : FileTree) : Prop :=
  ∃ file ∈ p.sources.files t, ∃ text ∈ p.config.ignores, Glob.isPattern text = false ∧
    leadsBelow t (p.root.join file) (p.root.join text) = true

/-- A file below an include is not listed, although it has one of the extensions, is no
generated file and is not below an ignored directory.  No pattern is ignored. -/
def Misses (p : Project) (t : FileTree) (r : Path) : Prop :=
  (t.read? r).isSome = true ∧ p.sources.hasExtension r = true ∧
    (∃ text ∈ p.config.includes, leadsBelow t r (p.root.join text) = true) ∧
    (∀ output ∈ [p.declarationPath, p.definitionPath], t.resolve? output ≠ t.resolve? r) ∧
    (∀ text ∈ p.config.ignores, Glob.isPattern text = false ∧
      leadsBelow t r (p.root.join text) = false) ∧
    ∀ file ∈ p.sources.files t, t.resolve? (p.root.join file) ≠ t.resolve? r

instance (p : Project) (t : FileTree) : Decidable (p.ListsTwice t) :=
  inferInstanceAs (Decidable (∃ file ∈ _, _))

instance (p : Project) (t : FileTree) : Decidable (p.ListsOutput t) :=
  inferInstanceAs (Decidable (∃ file ∈ _, _))

instance (p : Project) (t : FileTree) : Decidable (p.ListsIgnored t) :=
  inferInstanceAs (Decidable (∃ file ∈ _, _))

instance (p : Project) (t : FileTree) (r : Path) : Decidable (p.Misses t r) :=
  inferInstanceAs (Decidable (_ ∧ _))

/-- An include that leads up brings a file in twice, and the header, and misses a file if it
leads up from an ignored directory.  A header or an ignored path that leads up leaves
nothing out. -/
theorem leadsUp_examples : nestedTree.Sound ∧
    (nested ["src", "lib/../src"] [] "x.h").ListsTwice nestedTree ∧
    (nested ["src/../src"] [] "x.h").ListsOutput nestedTree ∧
    (nested ["lib/../src"] ["lib"] "x.h").Misses nestedTree ⟨"/p/src/a.cpp"⟩ ∧
    (nested ["src"] [] "../generated/x.h").ListsOutput nestedTree ∧
    (nested ["src"] ["src/../src/vendor"] "x.h").ListsIgnored nestedTree :=
  ⟨sound_nestedTree, by decide +kernel, by decide +kernel, by decide +kernel, by decide +kernel,
    by decide +kernel⟩

end Project

end FlashStrings
