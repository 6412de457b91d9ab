import Mathlib.Data.List.Basic
import FlashStrings.Proofs.FileTree.Sound

/-!
# Listings of alike trees

Two trees are alike for some files when they hold the same at the places of these
files (`FileTree.Alike`).  What is above such a file is then the same in both, so
whoever looks for files from a path down finds the same of them, in the same
order, whatever else the trees hold.

`FileTree.Agree` says this of two ways to list files.  The files at and below a
path agree (`FileTree.Agree.files`), and listings that agree are made into others
by joining a name (`FileTree.Agree.join`), by looking at a condition
(`FileTree.Agree.ite`), and by going through everything below a path
(`FileTree.Agree.below`).  A path that leads up lists the same of these files if it
leads to the same place in both trees (`FileTree.filter_files_eq`).
-/

namespace FlashStrings

open FlashStrings.Path (IsName)

/-! ## Lists made from sorted maps -/

/-- Maps that share the entries of which something is listed list the same. -/
theorem SortedMap.flatMap_entries_congr {κ α β : Type} [LT κ] [DecidableEq κ]
    [Std.Irrefl (α := κ) (· < ·)] [KeyOrder κ] {m m' : SortedMap κ α} {f f' : κ × α → List β}
    (h : ∀ e, e ∈ m.entries → f e ≠ [] → e ∈ m'.entries ∧ f' e = f e)
    (h' : ∀ e, e ∈ m'.entries → f' e ≠ [] → e ∈ m.entries ∧ f e = f' e) :
    m.entries.flatMap f = m'.entries.flatMap f' := by
  have hdrop : ∀ (l : List (κ × α)) (g : κ × α → List β),
      l.flatMap g = (l.filter fun e => !(g e).isEmpty).flatMap g := by
    intro l g
    induction l with
    | nil => rfl
    | cons e l ih =>
      cases hg : g e with
      | nil => rw [List.flatMap_cons, hg, List.filter_cons_of_neg (by simp [hg]), ← ih]; rfl
      | cons b bs =>
        rw [List.filter_cons_of_pos (by simp [hg]), List.flatMap_cons, List.flatMap_cons, ← ih]
  have hsame : (⟨m.entries.filter fun e => !(f e).isEmpty, m.sorted.filter _⟩ : SortedMap κ α) =
      ⟨m'.entries.filter fun e => !(f' e).isEmpty, m'.sorted.filter _⟩ := by
    refine SortedMap.ext_mem fun e => ?_
    simp only [List.mem_filter, Bool.not_eq_true', List.isEmpty_eq_false_iff]
    constructor
    · rintro ⟨hmem, hne⟩
      obtain ⟨hmem', heq⟩ := h e hmem hne
      exact ⟨hmem', heq ▸ hne⟩
    · rintro ⟨hmem, hne⟩
      obtain ⟨hmem', heq⟩ := h' e hmem hne
      exact ⟨hmem', heq ▸ hne⟩
  have hentries : m.entries.filter (fun e => !(f e).isEmpty) =
      m'.entries.filter fun e => !(f' e).isEmpty := congrArg SortedMap.entries hsame
  rw [hdrop, hdrop m'.entries, ← hentries]
  refine List.flatMap_congr fun e he => ?_
  obtain ⟨hmem, hne⟩ := List.mem_filter.1 he
  exact (h e hmem (by simpa using hne)).2.symm

namespace FileTree

variable {t t' : FileTree} {seen : Path → Bool} {p r : Path} {text : String}

/-! ## Files under a path -/

/-- A path leads to a file or to a directory above it. -/
structure Under (t : FileTree) (p r : Path) : Prop where
  /-- The path of the file never leads up. -/
  straight : r.Straight
  /-- The path above leads to its names. -/
  leads : t.resolve? p = some p.names
  /-- These are above the file. -/
  above : p.names <+: r.names
  /-- The file is there. -/
  isFile : ∃ content, t.node? r.names = some (.file content)

theorem Under.isSome (h : t.Under p r) : (t.node? r.names).isSome = true := by
  obtain ⟨content, hfile⟩ := h.isFile
  rw [hfile]
  rfl

/-- What is under a member of a directory is under the directory. -/
theorem Under.of_join (hp : p.Straight) (hslash : '/' ∉ text.toList)
    (h : t.Under (p.join text) r) : t.Under p r ∧ t.hasDirectory p = true := by
  have habsolute := Path.isAbsolute_eq_false_of_noSlash hslash
  have hleads := h.leads
  rw [resolve?_join t hp.isAbsolute habsolute, Path.parts_of_noSlash hslash] at hleads
  obtain ⟨place, hplace, hfollow⟩ := Option.bind_eq_some_iff.1 hleads
  obtain rfl := resolve?_eq_some hp hplace
  have hdir := isDirectory_of_follow (List.cons_ne_nil _ _) hfollow
  refine ⟨⟨h.straight, hplace, ?_, h.isFile⟩, ?_⟩
  · refine List.IsPrefix.trans ?_ h.above
    rw [Path.names_join (Path.text_ne_of_isAbsolute hp.isAbsolute) habsolute]
    exact List.prefix_append ..
  · simp [hasDirectory, find?, hplace, hdir]

/-- What is under a path from another one is under the other one. -/
theorem Under.of_foldl_join {names : List String} (hp : p.Straight)
    (hnames : ∀ name ∈ names, IsName name) (h : t.Under (names.foldl Path.join p) r) :
    t.Under p r := by
  induction names generalizing p with
  | nil => exact h
  | cons name names ih =>
    have hname := hnames name List.mem_cons_self
    have hjoin := ih (hp.join_of_noSlash hname.noSlash hname.notUp)
      (fun x hx => hnames x (List.mem_cons_of_mem _ hx)) h
    exact (hjoin.of_join hp hname.noSlash).1

/-! ## Alike trees -/

/-- Sound trees that hold the same at the places of the files that are seen. -/
structure Alike (t t' : FileTree) (seen : Path → Bool) : Prop where
  /-- The first tree is sound. -/
  left : t.Sound
  /-- The second tree is sound. -/
  right : t'.Sound
  /-- The files that are seen are the same. -/
  same : ∀ r : Path, r.Straight → seen r = true → t.node? r.names = t'.node? r.names

theorem Alike.symm (h : Alike t t' seen) : Alike t' t seen :=
  ⟨h.right, h.left, fun r hr hseen => (h.same r hr hseen).symm⟩

/-- What is above a file that is seen is the same in both trees. -/
theorem Alike.node?_eq (h : Alike t t' seen) (hr : t.Under p r) (hseen : seen r = true)
    {d : List String} (hd : d <+: r.names) : t.node? d = t'.node? d :=
  h.left.node?_eq_of_isPrefix h.right hd hr.isSome (h.same r hr.straight hseen)

theorem Alike.under (h : Alike t t' seen) (hp : p.Straight) (hr : t.Under p r)
    (hseen : seen r = true) : t'.Under p r where
  straight := hr.straight
  leads := resolve?_congr hp (fun _ hd => h.node?_eq hr hseen (hd.trans hr.above)) hr.leads
  above := hr.above
  isFile := by
    rw [← h.same r hr.straight hseen]
    exact hr.isFile

/-- Both trees find the same above a file that is seen. -/
theorem Alike.find?_eq (h : Alike t t' seen) (hp : p.Straight) (hr : t.Under p r)
    (hseen : seen r = true) : t.find? p = t'.find? p := by
  rw [find?, find?, hr.leads, (h.under hp hr hseen).leads]
  exact h.node?_eq hr hseen hr.above

/-! ## Listings that agree -/

/-- Two ways to list files under a path, one for each tree, list the same of the
files that are seen. -/
structure Agree (t t' : FileTree) (seen : Path → Bool) (list list' : Path → List Path) :
    Prop where
  /-- Files of the first tree are listed. -/
  under : ∀ p, p.Straight → ∀ r ∈ list p, t.Under p r
  /-- Files of the second tree are listed. -/
  under' : ∀ p, p.Straight → ∀ r ∈ list' p, t'.Under p r
  /-- The files that are seen are listed alike. -/
  same : ∀ p, p.Straight → (list p).filter seen = (list' p).filter seen

namespace Agree

variable {list list' more more' : Path → List Path}

theorem symm (h : Agree t t' seen list list') : Agree t' t seen list' list :=
  ⟨h.under', h.under, fun p hp => (h.same p hp).symm⟩

theorem nil (t t' : FileTree) (seen : Path → Bool) :
    Agree t t' seen (fun _ => []) (fun _ => []) :=
  ⟨fun _ _ _ h => absurd h List.not_mem_nil, fun _ _ _ h => absurd h List.not_mem_nil,
    fun _ _ => rfl⟩

theorem append (h : Agree t t' seen list list') (hmore : Agree t t' seen more more') :
    Agree t t' seen (fun p => list p ++ more p) (fun p => list' p ++ more' p) where
  under p hp r hr := (List.mem_append.1 hr).elim (h.under p hp r) (hmore.under p hp r)
  under' p hp r hr := (List.mem_append.1 hr).elim (h.under' p hp r) (hmore.under' p hp r)
  same p hp := by rw [List.filter_append, List.filter_append, h.same p hp, hmore.same p hp]

theorem flatMap {names : List String} {each each' : String → Path → List Path}
    (h : ∀ name ∈ names, Agree t t' seen (each name) (each' name)) :
    Agree t t' seen (fun p => names.flatMap (each · p)) (fun p => names.flatMap (each' · p)) := by
  induction names with
  | nil => exact nil t t' seen
  | cons name names ih =>
    simp only [List.flatMap_cons]
    exact (h name List.mem_cons_self).append
      (ih fun x hx => h x (List.mem_cons_of_mem _ hx))

/-- A condition that has the same outcome for both trees whenever a file is seen. -/
theorem ite (h : Agree t t' seen list list') (holds holds' : Path → Bool)
    (hholds : ∀ p, p.Straight → ∀ r, seen r = true → r ∈ list p → r ∈ list' p →
      holds p = holds' p) :
    Agree t t' seen (fun p => if holds p then list p else [])
      (fun p => if holds' p then list' p else []) where
  under p hp r hr := by
    split at hr
    · exact h.under p hp r hr
    · cases hr
  under' p hp r hr := by
    split at hr
    · exact h.under' p hp r hr
    · cases hr
  same p hp := by
    have hsame := h.same p hp
    cases hseen : (list p).filter seen with
    | nil =>
      rw [hseen] at hsame
      split <;> split <;> simp [hseen, ← hsame]
    | cons r rs =>
      have hmem : r ∈ (list p).filter seen := hseen ▸ List.mem_cons_self
      have hmem' := hsame ▸ hmem
      rw [hholds p hp r (List.mem_filter.1 hmem).2 (List.mem_filter.1 hmem).1
        (List.mem_filter.1 hmem').1]
      split
      · exact hsame
      · rfl

/-- The files under a member, if it is there. -/
theorem join (h : Agree t t' seen list list') (hslash : '/' ∉ text.toList) (hup : text ≠ "..") :
    Agree t t' seen (fun p => list (p.join text)) (fun p => list' (p.join text)) := by
  have hstraight : ∀ p : Path, p.Straight → (p.join text).Straight :=
    fun _ hp => hp.join_of_noSlash hslash hup
  exact ⟨fun p hp r hr => (Under.of_join hp hslash (h.under _ (hstraight p hp) r hr)).1,
    fun p hp r hr => (Under.of_join hp hslash (h.under' _ (hstraight p hp) r hr)).1,
    fun p hp => h.same _ (hstraight p hp)⟩

end Agree

/-! ## Everything below a path -/

/-- What is listed from everything at and below a path, by the names from there. -/
def listBelow (t : FileTree) (each : List String → Path → List Path) (p : Path) : List Path :=
  (t.resolve? p).elim [] fun place =>
    (t.below place).flatMap fun e => each e.1 (e.1.foldl Path.join p)

theorem exists_of_mem_listBelow (ht : t.Sound)
    {each : List String → Path → List Path} (hr : r ∈ t.listBelow each p) :
    ∃ names, (∀ name ∈ names, IsName name) ∧ r ∈ each names (names.foldl Path.join p) := by
  rw [listBelow] at hr
  cases hresolve : t.resolve? p with
  | none => simp [hresolve] at hr
  | some place =>
    rw [hresolve, Option.elim_some] at hr
    obtain ⟨⟨names, node⟩, hmem, hr⟩ := List.mem_flatMap.1 hr
    have hnode := (ht.get?_eq_some_iff.1 (mem_below.1 hmem)).2
    exact ⟨names, fun name hname => ht.isName _ (by rw [hnode]; rfl) name
      (List.mem_append_right _ hname), hr⟩

/-- What is listed from one place of a tree, if it is at or below the one that a path leads
to. -/
def listAt (t : FileTree) (each : List String → Path → List Path) (p : Path)
    (e : List String × Node) : List Path :=
  (t.resolve? p).elim [] fun place =>
    if place <+: e.1 then
      each (e.1.drop place.length) ((e.1.drop place.length).foldl Path.join p)
    else []

theorem listAt_append {place : List String} (hleads : t.resolve? p = some place)
    (each : List String → Path → List Path) (names : List String) (node : Node) :
    t.listAt each p (place ++ names, node) = each names (names.foldl Path.join p) := by
  rw [listAt, hleads, Option.elim_some, if_pos (List.prefix_append ..), List.drop_left]

theorem exists_of_mem_listAt {each : List String → Path → List Path} {e : List String × Node}
    (h : r ∈ t.listAt each p e) : ∃ place names, t.resolve? p = some place ∧
      e.1 = place ++ names ∧ r ∈ each names (names.foldl Path.join p) := by
  rw [listAt] at h
  cases hleads : t.resolve? p with
  | none => simp [hleads] at h
  | some place =>
    rw [hleads, Option.elim_some] at h
    split at h
    · next hbelow =>
      obtain ⟨names, hnames⟩ := hbelow
      rw [← hnames, List.drop_left] at h
      exact ⟨place, names, rfl, hnames.symm, h⟩
    · cases h

/-- The list, taken from all places of the tree. -/
theorem listBelow_eq (t : FileTree) (each : List String → Path → List Path) (p : Path) :
    t.listBelow each p = t.nodes.entries.flatMap (t.listAt each p) := by
  rw [listBelow]
  cases hr : t.resolve? p with
  | none => simp [listAt, hr]
  | some place =>
    rw [Option.elim_some, below, List.filterMap_eq_flatMap_toList, List.flatMap_assoc]
    refine List.flatMap_congr fun e _ => ?_
    rw [listAt, hr, Option.elim_some]
    by_cases hbelow : place <+: e.1
    · simp [hbelow, List.isPrefixOf_iff_prefix.2 hbelow]
    · have hfalse : place.isPrefixOf e.1 = false :=
        eq_false_of_ne_true fun h => hbelow (List.isPrefixOf_iff_prefix.1 h)
      simp [hbelow, hfalse]

theorem Agree.listAt (ha : Alike t t' seen) {each each' : List String → Path → List Path}
    (h : ∀ names, (∀ name ∈ names, IsName name) → Agree t t' seen (each names) (each' names))
    (hp : p.Straight) {e : List String × Node} (he : e ∈ t.nodes.entries)
    (hne : (t.listAt each p e).filter seen ≠ []) : e ∈ t'.nodes.entries ∧
      (t'.listAt each' p e).filter seen = (t.listAt each p e).filter seen := by
  obtain ⟨q, node⟩ := e
  obtain ⟨r, hmem⟩ := List.exists_mem_of_ne_nil _ hne
  obtain ⟨hlisted, hseen⟩ := List.mem_filter.1 hmem
  obtain ⟨place, names, hleads, rfl, hr⟩ := exists_of_mem_listAt hlisted
  obtain rfl := resolve?_eq_some hp hleads
  obtain ⟨hne', hnode⟩ := ha.left.get?_eq_some_iff.1 (SortedMap.get?_eq_some_iff.2 he)
  have hnames : ∀ name ∈ names, IsName name := fun name hname =>
    ha.left.isName _ (by rw [hnode]; rfl) name (List.mem_append_right _ hname)
  obtain ⟨hstraight, hplace⟩ := straight_foldl_join hp hnames
  have hunder := (h names hnames).under _ hstraight r hr
  have hleads' := (ha.under hp (hunder.of_foldl_join hp hnames) hseen).leads
  have hnode' := ha.node?_eq hunder hseen (hplace ▸ hunder.above)
  constructor
  · refine SortedMap.get?_eq_some_iff.1 (ha.right.get?_eq_some_iff.2 ⟨hne', ?_⟩)
    rw [← hnode', hnode]
  · rw [listAt_append hleads, listAt_append hleads']
    exact ((h names hnames).same _ hstraight).symm

/-- Going through everything below a path, alike trees list the same. -/
theorem Agree.below (ha : Alike t t' seen) {each each' : List String → Path → List Path}
    (h : ∀ names, (∀ name ∈ names, IsName name) → Agree t t' seen (each names) (each' names)) :
    Agree t t' seen (t.listBelow each) (t'.listBelow each') where
  under p hp r hr := by
    obtain ⟨names, hnames, hr⟩ := exists_of_mem_listBelow ha.left hr
    have hstraight := (straight_foldl_join hp hnames).1
    exact ((h names hnames).under _ hstraight r hr).of_foldl_join hp hnames
  under' p hp r hr := by
    obtain ⟨names, hnames, hr⟩ := exists_of_mem_listBelow ha.right hr
    have hstraight := (straight_foldl_join hp hnames).1
    exact ((h names hnames).under' _ hstraight r hr).of_foldl_join hp hnames
  same p hp := by
    rw [listBelow_eq, listBelow_eq, List.filter_flatMap, List.filter_flatMap]
    refine SortedMap.flatMap_entries_congr (fun e he hne => ?_) fun e he hne => ?_
    · exact Agree.listAt ha h hp he hne
    · exact Agree.listAt ha.symm (fun names hnames => (h names hnames).symm) hp he hne

/-! ## Files -/

/-- A path, if it leads to a file. -/
def listFile (t : FileTree) (p : Path) : List Path :=
  match t.find? p with
  | some (.file _) => [p]
  | _ => []

theorem mem_listFile : r ∈ t.listFile p ↔ r = p ∧ ∃ content, t.find? p = some (.file content) := by
  rw [listFile]
  split
  · next content hfind => simp [hfind]
  · next hnone => simpa using fun _ => hnone

theorem under_of_mem_listFile (hp : p.Straight) (h : r ∈ t.listFile p) :
    r = p ∧ t.Under p p := by
  obtain ⟨rfl, content, hfind⟩ := mem_listFile.1 h
  obtain ⟨place, hresolve, hnode⟩ := Option.bind_eq_some_iff.1 hfind
  obtain rfl := resolve?_eq_some hp hresolve
  exact ⟨rfl, hp, hresolve, List.prefix_rfl, content, hnode⟩

theorem listFile_eq_of_seen (ha : Alike t t' seen) (hp : p.Straight) (hseen : seen p = true)
    (h : p ∈ t.listFile p) : t'.listFile p = t.listFile p := by
  rw [listFile, listFile, ha.find?_eq hp (under_of_mem_listFile hp h).2 hseen]

theorem Agree.listFile (ha : Alike t t' seen) : Agree t t' seen t.listFile t'.listFile where
  under p hp r hr := by
    obtain ⟨rfl, h⟩ := under_of_mem_listFile hp hr
    exact h
  under' p hp r hr := by
    obtain ⟨rfl, h⟩ := under_of_mem_listFile hp hr
    exact h
  same p hp := by
    have honly : ∀ {t : FileTree} {r}, r ∈ (t.listFile p).filter seen →
        p ∈ t.listFile p ∧ seen p = true := fun hr => by
      obtain ⟨hr, hseen⟩ := List.mem_filter.1 hr
      obtain ⟨rfl, -⟩ := under_of_mem_listFile hp hr
      exact ⟨hr, hseen⟩
    cases h : (t.listFile p).filter seen with
    | cons r rs =>
      obtain ⟨hmem, hseen⟩ := honly (h ▸ List.mem_cons_self)
      rw [listFile_eq_of_seen ha hp hseen hmem, h]
    | nil =>
      cases h' : (t'.listFile p).filter seen with
      | nil => rfl
      | cons r rs =>
        obtain ⟨hmem, hseen⟩ := honly (h' ▸ List.mem_cons_self)
        rw [← listFile_eq_of_seen ha.symm hp hseen hmem, h] at h'
        cases h'

/-- In a sound tree the files at and below a path are the paths from there that
lead to files. -/
theorem files_eq_listBelow (ht : t.Sound) (hp : p.isAbsolute = true) :
    t.files p = t.listBelow (fun _ => t.listFile) p := by
  rw [files, walk, listBelow]
  cases hr : t.resolve? p with
  | none => rfl
  | some place =>
    simp only [Option.elim_some, List.filterMap_map]
    rw [List.filterMap_eq_flatMap_toList]
    refine List.flatMap_congr fun (names, node) hmem => ?_
    obtain ⟨-, hnode⟩ := ht.get?_eq_some_iff.1 (mem_below.1 hmem)
    have hresolve := ht.resolve?_foldl_join hp hr (by rw [hnode]; rfl)
    have hfind : t.find? (names.foldl Path.join p) = some node := by
      rw [find?, hresolve, Option.bind_some, hnode]
    rw [listFile, hfind]
    cases node <;> rfl

theorem Agree.files (ha : Alike t t' seen) : Agree t t' seen t.files t'.files := by
  have h := Agree.below ha fun _ _ => Agree.listFile ha
  refine ⟨fun p hp r hr => ?_, fun p hp r hr => ?_, fun p hp => ?_⟩
  · rw [files_eq_listBelow ha.left hp.isAbsolute] at hr
    exact h.under p hp r hr
  · rw [files_eq_listBelow ha.right hp.isAbsolute] at hr
    exact h.under' p hp r hr
  · rw [files_eq_listBelow ha.left hp.isAbsolute, files_eq_listBelow ha.right hp.isAbsolute]
    exact h.same p hp

/-! ## Paths that may lead up -/

theorem isAbsolute_foldl_join (hp : p.isAbsolute = true) (names : List String) :
    (names.foldl Path.join p).isAbsolute = true := by
  induction names generalizing p with
  | nil => exact hp
  | cons name names ih => exact ih (Path.isAbsolute_join hp name)

/-- The files at and below an absolute path are found at places below the one that it leads
to. -/
theorem exists_of_mem_files (ht : t.Sound) (hp : p.isAbsolute = true) (hr : r ∈ t.files p) :
    r.isAbsolute = true ∧ ∃ place names content, t.resolve? p = some place ∧
      r = names.foldl Path.join p ∧ t.resolve? r = some (place ++ names) ∧
      t.node? (place ++ names) = some (.file content) := by
  rw [files, walk] at hr
  cases hplace : t.resolve? p with
  | none => simp [hplace] at hr
  | some place =>
    simp only [hplace, List.filterMap_map] at hr
    obtain ⟨⟨names, node⟩, hbelow, hr⟩ := List.mem_filterMap.1 hr
    have hnode := (ht.get?_eq_some_iff.1 (mem_below.1 hbelow)).2
    cases node with
    | directory => cases hr
    | file content =>
      obtain rfl := Option.some.inj hr
      exact ⟨isAbsolute_foldl_join hp _, place, names, content, rfl, rfl,
        ht.resolve?_foldl_join hp hplace (by rw [hnode]; rfl), hnode⟩

/-- A file that is seen from a path stands in the other tree as well. -/
theorem listAt_eq_of_seen (ht : t.Sound) (ht' : t'.Sound) (hp : p.isAbsolute = true)
    (hplace : t.resolve? p = t'.resolve? p)
    (hseen : ∀ r, seen r = true → t.find? r = t'.find? r) {e : List String × Node}
    (he : e ∈ t.nodes.entries) (hne : (t.listAt (fun _ => t.listFile) p e).filter seen ≠ []) :
    e ∈ t'.nodes.entries ∧ (t'.listAt (fun _ => t'.listFile) p e).filter seen =
      (t.listAt (fun _ => t.listFile) p e).filter seen := by
  obtain ⟨q, node⟩ := e
  obtain ⟨r, hmem⟩ := List.exists_mem_of_ne_nil _ hne
  obtain ⟨hlisted, hseen'⟩ := List.mem_filter.1 hmem
  obtain ⟨place, names, hleads, rfl, hr⟩ := exists_of_mem_listAt hlisted
  obtain ⟨rfl, -⟩ := mem_listFile.1 hr
  obtain ⟨hne', hnode⟩ := ht.get?_eq_some_iff.1 (SortedMap.get?_eq_some_iff.2 he)
  have hresolve := ht.resolve?_foldl_join hp hleads (by rw [hnode]; rfl)
  -- the path leads to the same place in the other tree, since it finds something there
  have hfind : t'.find? (names.foldl Path.join p) = some node := by
    rw [← hseen _ hseen', find?, hresolve, Option.bind_some, hnode]
  obtain ⟨q, hresolve', hnode'⟩ := Option.bind_eq_some_iff.1 hfind
  have habsolute := isAbsolute_foldl_join hp names
  obtain rfl := place_eq_of_names_eq habsolute habsolute rfl hresolve hresolve'
  refine ⟨SortedMap.get?_eq_some_iff.1 (ht'.get?_eq_some_iff.2 ⟨hne', hnode'⟩), ?_⟩
  rw [listAt_append hleads, listAt_append (hplace ▸ hleads), listFile, listFile, hseen _ hseen']

/-- From a path that leads to one place in two trees the same files are listed, of those that
both trees find alike. -/
theorem filter_files_eq (ht : t.Sound) (ht' : t'.Sound) (hp : p.isAbsolute = true)
    (hplace : t.resolve? p = t'.resolve? p)
    (hseen : ∀ r, seen r = true → t.find? r = t'.find? r) :
    (t.files p).filter seen = (t'.files p).filter seen := by
  rw [files_eq_listBelow ht hp, files_eq_listBelow ht' hp, listBelow_eq, listBelow_eq,
    List.filter_flatMap, List.filter_flatMap]
  refine SortedMap.flatMap_entries_congr (fun e he hne => ?_) fun e he hne => ?_
  · exact listAt_eq_of_seen ht ht' hp hplace hseen he hne
  · exact listAt_eq_of_seen ht' ht hp hplace.symm (fun r hr => (hseen r hr).symm) he hne

end FileTree

end FlashStrings
