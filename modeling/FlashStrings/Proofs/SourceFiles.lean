import FlashStrings.Proofs.Glob.Found
import FlashStrings.SourceFiles

/-!
# Sources of alike trees

The sources of a project are listed from its includes.  An include that does not lead up
lists the same of the files that are seen in alike trees (`SourceSettings.agree_root`).  One
that leads up does so if it stands for the same paths in both trees, and these lead to the
same places (`SourceSettings.StandsAlike`).  So two trees have the same sources if they
differ in no file that is a source in one of them (`SourceSettings.files_congr`).
-/

namespace FlashStrings

open FlashStrings.Path (IsName)
open FileTree (Alike Agree Under)

variable {t t' : FileTree} {seen : Path → Bool}

/-! ## Members and descendants -/

namespace FileTree

/-- What is listed from a path with one name more. -/
def listMember (holds : String → Bool) (list : Path → List Path) : List String → Path → List Path
  | [name], p => if holds name then list p else []
  | _, _ => []

theorem flatMap_members (t : FileTree) (p : Path) (holds : String → Bool)
    (list : Path → List Path) :
    ((t.members p).filter holds).flatMap (fun name => list (p.join name)) =
      t.listBelow (listMember holds list) p := by
  rw [members, listBelow]
  cases t.resolve? p with
  | none => rfl
  | some place =>
    simp only [Option.elim_some]
    induction t.below place with
    | nil => rfl
    | cons e l ih =>
      obtain ⟨names, node⟩ := e
      rw [List.flatMap_cons, ← ih]
      rcases names with _ | ⟨name, _ | ⟨_, _⟩⟩
      · rfl
      · show (List.filter holds (name :: _)).flatMap _ = (if holds name then _ else []) ++ _
        by_cases h : holds name
        · rw [List.filter_cons_of_pos h, List.flatMap_cons, if_pos h]
          rfl
        · rw [List.filter_cons_of_neg h, if_neg h]
          rfl
      · rfl

theorem flatMap_descendants (t : FileTree) (p : Path) (list : Path → List Path) :
    (t.descendants p).flatMap list =
      t.listBelow (fun names q => if names.isEmpty then [] else list q) p := by
  rw [descendants, listBelow]
  cases t.resolve? p with
  | none => rfl
  | some place =>
    simp only [Option.elim_some]
    induction t.below place with
    | nil => rfl
    | cons e l ih =>
      obtain ⟨names, node⟩ := e
      rw [List.flatMap_cons, ← ih]
      cases names <;> rfl

namespace Agree

variable {list list' other other' : Path → List Path}

theorem of_eq (h : Agree t t' seen list list') (heq : ∀ p, other p = list p)
    (heq' : ∀ p, other' p = list' p) : Agree t t' seen other other' := by
  rwa [funext heq, funext heq']

/-- What is listed if a path leads to a directory. -/
theorem ofDirectory (ha : Alike t t' seen) (h : Agree t t' seen list list') :
    Agree t t' seen (fun p => if t.hasDirectory p then list p else [])
      (fun p => if t'.hasDirectory p then list' p else []) := by
  refine h.ite _ _ fun p hp r hseen hr _ => ?_
  rw [hasDirectory, hasDirectory, ha.find?_eq hp (h.under p hp r hr) hseen]

end Agree

end FileTree

/-! ## Patterns -/

namespace Glob

namespace PathPattern

/-- A component that may lead up. -/
def LeadsUp : PathPattern → Prop
  | plain text => text = ".."
  | wild tokens => ".." ∈ dots tokens
  | anyDepth => False

instance : DecidablePred LeadsUp
  | plain text => inferInstanceAs (Decidable (text = ".."))
  | wild tokens => inferInstanceAs (Decidable (".." ∈ dots tokens))
  | anyDepth => inferInstanceAs (Decidable False)

/-- A component without slashes that does not lead up. -/
structure Flat (pattern : PathPattern) : Prop where
  /-- It does not lead up. -/
  notUp : ¬pattern.LeadsUp
  /-- It is one component. -/
  noSlash : ∀ text, pattern = plain text → '/' ∉ text.toList

end PathPattern

open PathPattern (dots)

variable {list list' : Path → List Path}

/-- Whether a component without wildcards goes on from a path. -/
def goesOn (t : FileTree) (text : String) (p : Path) : Bool :=
  if text = "." || text = ".." then t.hasDirectory p else t.has (p.join text)

theorem agree_plain (ha : Alike t t' seen) (h : Agree t t' seen list list') {text : String}
    (hslash : '/' ∉ text.toList) (hup : text ≠ "..") :
    Agree t t' seen (fun p => if goesOn t text p then list (p.join text) else [])
      (fun p => if goesOn t' text p then list' (p.join text) else []) := by
  refine (h.join hslash hup).ite _ _ fun p hp r hseen hr _ => ?_
  have hjoin := hp.join_of_noSlash hslash hup
  have hunder := h.under _ hjoin r hr
  have hdir := ha.find?_eq hp (hunder.of_join hp hslash).1 hseen
  have hmember := ha.find?_eq hjoin hunder hseen
  rw [goesOn, goesOn, FileTree.hasDirectory, FileTree.hasDirectory, FileTree.has, FileTree.has,
    hdir, hmember]

theorem agree_wild (ha : Alike t t' seen) (h : Agree t t' seen list list') {tokens : List Token}
    (hup : ".." ∉ dots tokens) :
    Agree t t' seen
      (fun p => (dots tokens).flatMap (fun name => list (p.join name)) ++
        t.listBelow (FileTree.listMember (matchesString tokens) list) p)
      (fun p => (dots tokens).flatMap (fun name => list' (p.join name)) ++
        t'.listBelow (FileTree.listMember (matchesString tokens) list') p) := by
  refine Agree.append (Agree.flatMap fun name hname => ?_) (Agree.below ha fun names _ => ?_)
  · have hdot : name = "." := (eq_of_mem_dots hname).resolve_left fun he => hup (he ▸ hname)
    rw [hdot]
    exact h.join (by decide) (by decide)
  · match names with
    | [name] => exact h.ite _ _ fun _ _ _ _ _ _ => rfl
    | [] => exact Agree.nil t t' seen
    | _ :: _ :: _ => exact Agree.nil t t' seen

theorem agree_descendants (ha : Alike t t' seen) (h : Agree t t' seen list list') :
    Agree t t' seen (fun p => (t.descendants p).flatMap list)
      (fun p => (t'.descendants p).flatMap list') := by
  have hbelow : Agree t t' seen
      (t.listBelow fun names q => if names.isEmpty then [] else list q)
      (t'.listBelow fun names q => if names.isEmpty then [] else list' q) := by
    refine Agree.below ha fun names _ => ?_
    cases names with
    | nil => exact Agree.nil t t' seen
    | cons name names => exact h
  exact hbelow.of_eq (t.flatMap_descendants · list) (t'.flatMap_descendants · list')

theorem flatMap_filter (l : List Path) (holds : Path → Bool) (list : Path → List Path) :
    (l.filter holds).flatMap list = l.flatMap fun p => if holds p then list p else [] := by
  induction l with
  | nil => rfl
  | cons p l ih =>
    by_cases h : holds p
    · rw [List.filter_cons_of_pos h, List.flatMap_cons, List.flatMap_cons, ih, if_pos h]
    · rw [List.filter_cons_of_neg h, List.flatMap_cons, ih, if_neg h, List.nil_append]

/-- Patterns that do not lead up find the same in alike trees. -/
theorem agree_expand (ha : Alike t t' seen) (h : Agree t t' seen list list') :
    ∀ patterns : List PathPattern, (∀ pattern ∈ patterns, pattern.Flat) →
      Agree t t' seen (fun p => (expand t patterns p).flatMap list)
        (fun p => (expand t' patterns p).flatMap list')
  | [], _ => h.of_eq (fun _ => List.flatMap_singleton _ _) fun _ => List.flatMap_singleton _ _
  | .plain text :: patterns, hflat => by
    have hrest := agree_expand ha h patterns fun x hx => hflat x (List.mem_cons_of_mem _ hx)
    have htext := hflat _ List.mem_cons_self
    have heq : ∀ (t : FileTree) (list : Path → List Path) p,
        (expand t (.plain text :: patterns) p).flatMap list =
          if goesOn t text p then (expand t patterns (p.join text)).flatMap list else [] := by
      intro t list p
      show List.flatMap list (if goesOn t text p then expand t patterns (p.join text) else []) = _
      split <;> rfl
    exact (agree_plain ha hrest (htext.noSlash text rfl) htext.notUp).of_eq (heq t list)
      (heq t' list')
  | .wild tokens :: patterns, hflat => by
    have hrest := agree_expand ha h patterns fun x hx => hflat x (List.mem_cons_of_mem _ hx)
    have hup : ".." ∉ dots tokens := (hflat _ List.mem_cons_self).notUp
    have heq : ∀ (t : FileTree) (list : Path → List Path) p,
        (expand t (.wild tokens :: patterns) p).flatMap list =
          if t.hasDirectory p then
            (dots tokens).flatMap (fun name => (expand t patterns (p.join name)).flatMap list) ++
              t.listBelow (FileTree.listMember (matchesString tokens)
                fun q => (expand t patterns q).flatMap list) p
          else [] := by
      intro t list p
      rw [expand]
      split
      · rw [List.flatMap_assoc, List.flatMap_append, ← FileTree.flatMap_members]
      · rfl
    exact ((agree_wild ha hrest hup).ofDirectory ha).of_eq (heq t list) (heq t' list')
  | [.anyDepth], _ =>
    (agree_descendants ha (h.ofDirectory ha)).of_eq (fun _ => flatMap_filter ..)
      fun _ => flatMap_filter ..
  | .anyDepth :: pattern :: patterns, hflat => by
    have hrest := agree_expand ha h patterns fun x hx =>
      hflat x (List.mem_cons_of_mem _ (List.mem_cons_of_mem _ hx))
    have hnamed := hrest.ite (fun q => q.fileName?.any pattern.holds)
      (fun q => q.fileName?.any pattern.holds) fun _ _ _ _ _ _ => rfl
    have heq : ∀ (t : FileTree) (list : Path → List Path) p,
        (expand t (.anyDepth :: pattern :: patterns) p).flatMap list =
          (t.descendants p).flatMap fun q => if q.fileName?.any pattern.holds then
            (expand t patterns q).flatMap list else [] := by
      intro t list p
      rw [expand, List.flatMap_assoc]
      refine List.flatMap_congr fun q _ => ?_
      split <;> rfl
    exact (agree_descendants ha hnamed).of_eq (heq t list) (heq t' list')

theorem flat_of_patterns {pattern : Path} {components : List PathPattern}
    (h : patterns pattern = .ok components) (hup : ∀ x ∈ components, ¬x.LeadsUp) :
    ∀ x ∈ components, x.Flat := fun x hx =>
  ⟨hup x hx, fun _ htext => noSlash_of_patterns h (htext ▸ hx)⟩

/-- The paths that a pattern finds, with the files at and below them. -/
theorem agree_find (ha : Alike t t' seen) {pattern : Path} {components : List PathPattern}
    (h : patterns pattern = .ok components) (hup : ∀ x ∈ components, ¬x.LeadsUp) :
    ∃ list list', Agree t t' seen list list' ∧
      (find t pattern).map (·.flatMap t.files) = .ok (list ⟨"/"⟩) ∧
      (find t' pattern).map (·.flatMap t'.files) = .ok (list' ⟨"/"⟩) := by
  have hflat := flat_of_patterns h hup
  rw [find_eq, find_eq, h]
  by_cases hslash : pattern.text.toList.getLast? = some '/'
  · simp only [if_pos hslash]
    exact ⟨_, _, agree_expand ha ((Agree.files ha).ofDirectory ha) components hflat,
      congrArg Except.ok (flatMap_filter ..), congrArg Except.ok (flatMap_filter ..)⟩
  · simp only [if_neg hslash]
    exact ⟨_, _, agree_expand ha (Agree.files ha) components hflat, rfl, rfl⟩

end Glob

/-! ## Sources -/

namespace SourceSettings

/-- The include does not lead up. -/
def IncludeDescends (s : SourceSettings) (text : String) : Prop :=
  if Glob.isPattern text then
    ∀ components, Glob.patterns (s.base.join text) = .ok components → ∀ x ∈ components, ¬x.LeadsUp
  else ".." ∉ (s.base.join text).parts

/-- No include leads up. -/
def Descends (s : SourceSettings) : Prop := ∀ text ∈ s.includes, s.IncludeDescends text

/-- An include stands for the same paths in two trees, and they lead to the same places. -/
structure StandsAlike (s : SourceSettings) (t t' : FileTree) (text : String) : Prop where
  paths : (s.root t text).1 = (s.root t' text).1
  places : ∀ q ∈ (s.root t text).1, t.resolve? q = t'.resolve? q

/-- Each include that leads up stands for the same in two trees. -/
def KeepsIncludes (s : SourceSettings) (t t' : FileTree) : Prop :=
  ∀ text ∈ s.includes, s.IncludeDescends text ∨ s.StandsAlike t t' text

/-- The files that may be sources, as they are met. -/
def listed (s : SourceSettings) (t : FileTree) : List Path := (s.roots t).flatMap t.files

variable {s : SourceSettings} {text : String} {q r : Path}

theorem straight_slash : (⟨"/"⟩ : Path).Straight := ⟨by decide, by decide⟩

theorem mem_files {file : String} :
    file ∈ s.files t ↔ ∃ r ∈ s.listed t, s.admits r = true ∧ r.relativeTo s.base = file := by
  rw [files, List.mem_eraseDups, List.mem_map]
  simp only [List.mem_filter, listed, and_assoc]

/-! ### What an include stands for -/

theorem leads_of_mem_root (ht : t.Sound) (hbase : s.base.isAbsolute = true)
    (hq : q ∈ (s.root t text).1) : t.Leads q := by
  rw [root] at hq
  split at hq
  · cases hfound : Glob.find t (s.base.join text) with
    | error e =>
      rw [hfound] at hq
      cases hq
    | ok found =>
      rw [hfound] at hq
      exact Glob.leads_of_mem_find ht hfound hq
  · split at hq
    · next hhas =>
      obtain rfl := List.mem_singleton.1 hq
      exact ⟨Path.isAbsolute_join hbase text, hhas⟩
    · cases hq

theorem StandsAlike.symm (h : s.StandsAlike t t' text) : s.StandsAlike t' t text :=
  ⟨h.paths.symm, fun q hq => (h.places q (h.paths ▸ hq)).symm⟩

theorem KeepsIncludes.symm (h : s.KeepsIncludes t t') : s.KeepsIncludes t' t :=
  fun text htext => (h text htext).imp_right StandsAlike.symm

/-- The same paths lead to the same places where directories are kept. -/
theorem keepsIncludes_of_keepsDirectories (ht : t.Sound) (hbase : s.base.isAbsolute = true)
    (hkeeps : t.KeepsDirectories t')
    (h : ∀ text ∈ s.includes, s.IncludeDescends text ∨ (s.root t text).1 = (s.root t' text).1) :
    s.KeepsIncludes t t' := by
  refine fun text htext => (h text htext).imp_right fun hpaths => ⟨hpaths, fun q hq => ?_⟩
  obtain ⟨place, hplace⟩ := (leads_of_mem_root ht hbase hq).exists_resolve?
  rw [hplace, FileTree.resolve?_of_keepsDirectories hkeeps hplace]

/-- What an include that does not lead up stands for, with the files at and below it. -/
theorem agree_root (ha : Alike t t' seen) (hbase : s.base.Straight) (h : s.IncludeDescends text) :
    ∃ list list' p, Agree t t' seen list list' ∧ p.Straight ∧
      (s.root t text).1.flatMap t.files = list p ∧
      (s.root t' text).1.flatMap t'.files = list' p := by
  rw [IncludeDescends] at h
  rw [root, root]
  split at h
  · next hpattern =>
    rw [if_pos hpattern, if_pos hpattern]
    cases hpatterns : Glob.patterns (s.base.join text) with
    | error e =>
      refine ⟨_, _, ⟨"/"⟩, Agree.nil t t' seen, straight_slash, ?_, ?_⟩
      all_goals rw [Glob.find_eq, hpatterns]; rfl
    | ok components =>
      obtain ⟨list, list', hagree, hlist, hlist'⟩ :=
        Glob.agree_find ha hpatterns (h components hpatterns)
      obtain ⟨found, hfound, hlist⟩ := map_eq_ok hlist
      obtain ⟨found', hfound', hlist'⟩ := map_eq_ok hlist'
      refine ⟨list, list', ⟨"/"⟩, hagree, straight_slash, ?_, ?_⟩
      · rw [hfound]
        exact hlist
      · rw [hfound']
        exact hlist'
  · next hpattern =>
    have hstraight : (s.base.join text).Straight :=
      ⟨Path.isAbsolute_join hbase.isAbsolute text, h⟩
    have hagree := (Agree.files ha).ite t.has t'.has
      fun p hp r hseen hr _ => by
        rw [FileTree.has, FileTree.has,
          ha.find?_eq hp ((Agree.files ha).under p hp r hr) hseen]
    refine ⟨_, _, s.base.join text, hagree, hstraight, ?_, ?_⟩
    · rw [if_neg hpattern]
      split
      · exact List.flatMap_singleton ..
      · rfl
    · rw [if_neg hpattern]
      split
      · exact List.flatMap_singleton ..
      · rfl

/-! ### The files -/

/-- A file that may be a source is a file of the tree. -/
theorem exists_of_mem_listed (ht : t.Sound) (hbase : s.base.isAbsolute = true)
    (hr : r ∈ s.listed t) : r.isAbsolute = true ∧
      ∃ place content, t.resolve? r = some place ∧ t.node? place = some (.file content) := by
  obtain ⟨q, hq, hr⟩ := List.mem_flatMap.1 hr
  have habsolute : q.isAbsolute = true := by
    rw [roots] at hq
    split at hq
    · rwa [List.mem_singleton.1 hq]
    · obtain ⟨text, -, hq⟩ := List.mem_flatMap.1 hq
      exact (leads_of_mem_root ht hbase hq).isAbsolute
  obtain ⟨habsolute, place, names, content, -, -, hresolve, hnode⟩ :=
    FileTree.exists_of_mem_files ht habsolute hr
  exact ⟨habsolute, place ++ names, content, hresolve, hnode⟩

theorem mem_listed_cases (hr : r ∈ s.listed t) : r ∈ t.files s.base ∨
    ∃ text ∈ s.includes, r ∈ (s.root t text).1.flatMap t.files := by
  rw [listed, roots] at hr
  split at hr
  · rw [List.flatMap_singleton] at hr
    exact .inl hr
  · rw [List.flatMap_assoc] at hr
    exact .inr (List.mem_flatMap.1 hr)

theorem under_of_mem_base (ht : t.Sound) (hbase : s.base.Straight) (hr : r ∈ t.files s.base) :
    t.Under s.base r := by
  have ha : Alike t t fun _ => true := ⟨ht, ht, fun _ _ _ => rfl⟩
  exact (Agree.files ha).under _ hbase r hr

/-- A file from an include that does not lead up is at the names of its path. -/
theorem under_of_includeDescends (ht : t.Sound) (hbase : s.base.Straight)
    (h : s.IncludeDescends text) (hr : r ∈ (s.root t text).1.flatMap t.files) :
    ∃ p, t.Under p r := by
  have ha : Alike t t fun _ => true := ⟨ht, ht, fun _ _ _ => rfl⟩
  obtain ⟨list, list', p, hagree, hp, heq, -⟩ := agree_root ha hbase h
  rw [heq] at hr
  exact ⟨p, hagree.under p hp r hr⟩

theorem under_of_mem_listed (ht : t.Sound) (hbase : s.base.Straight) (h : s.Descends)
    (hr : r ∈ s.listed t) : ∃ p, t.Under p r := by
  rcases mem_listed_cases hr with hr | ⟨text, htext, hr⟩
  · exact ⟨_, under_of_mem_base ht hbase hr⟩
  · exact under_of_includeDescends ht hbase (h text htext) hr

/-- A file from another include is below what the include stands for in both trees. -/
theorem under_or_below_of_mem_listed (ht : t.Sound) (hbase : s.base.Straight)
    (h : s.KeepsIncludes t t') (hr : r ∈ s.listed t) : (∃ p, t.Under p r) ∨
      ∃ q, q.isAbsolute = true ∧ t.resolve? q = t'.resolve? q ∧ r ∈ t.files q := by
  rcases mem_listed_cases hr with hr | ⟨text, htext, hr⟩
  · exact .inl ⟨_, under_of_mem_base ht hbase hr⟩
  · rcases h text htext with hdescends | halike
    · exact .inl (under_of_includeDescends ht hbase hdescends hr)
    · obtain ⟨q, hq, hr⟩ := List.mem_flatMap.1 hr
      exact .inr ⟨q, (leads_of_mem_root ht hbase.isAbsolute hq).isAbsolute, halike.places q hq, hr⟩

theorem node?_of_mem_listed (ht : t.Sound) (hbase : s.base.isAbsolute = true)
    (hr : r ∈ s.listed t) {place : List String} (hplace : t.resolve? r = some place) :
    ∃ content, t.node? place = some (.file content) := by
  obtain ⟨-, place', content, hplace', hnode⟩ := exists_of_mem_listed ht hbase hr
  obtain rfl := Option.some.inj (hplace.symm.trans hplace')
  exact ⟨content, hnode⟩

/-- Where a file may be a source in one tree, the other tree finds it if it holds the same
there. -/
theorem find?_eq_of_mem_listed (ht : t.Sound) (ht' : t'.Sound) (hbase : s.base.Straight)
    (h : s.KeepsIncludes t t') (hr : r ∈ s.listed t)
    (hsame : ∀ place, t.resolve? r = some place → t.node? place = t'.node? place) :
    t.find? r = t'.find? r := by
  rcases under_or_below_of_mem_listed ht hbase h hr with ⟨p, hunder⟩ | ⟨q, hq, hplaces, hr⟩
  · obtain ⟨-, place, content, hplace, -⟩ := exists_of_mem_listed ht hbase.isAbsolute hr
    obtain rfl := FileTree.resolve?_eq_some hunder.straight hplace
    exact FileTree.find?_congr ht ht' hunder.straight (hsame _ hplace)
  · obtain ⟨-, place, names, content, hplace, rfl, hresolve, hnode⟩ :=
      FileTree.exists_of_mem_files ht hq hr
    have hnode' := (hsame _ hresolve).symm.trans hnode
    have hresolve' := ht'.resolve?_foldl_join hq (hplaces ▸ hplace) (by rw [hnode']; rfl)
    rw [FileTree.find?, FileTree.find?, hresolve, hresolve', Option.bind_some, Option.bind_some,
      hsame _ hresolve]

/-- The files that may be sources agree, of those that both trees find alike. -/
theorem filter_listed (ht : t.Sound) (ht' : t'.Sound) (hbase : s.base.Straight)
    (h : s.KeepsIncludes t t')
    (hseen : ∀ r, seen r = true → (t.find? r).isSome = true ∧ t.find? r = t'.find? r) :
    (s.listed t).filter seen = (s.listed t').filter seen := by
  have ha : Alike t t' seen := by
    refine ⟨ht, ht', fun r hr hr' => ?_⟩
    obtain ⟨hsome, hsame⟩ := hseen r hr'
    obtain ⟨node, hnode⟩ := Option.isSome_iff_exists.1 hsome
    have hnames : ∀ {u : FileTree}, u.find? r = some node → u.node? r.names = some node := by
      intro u hu
      obtain ⟨place, hplace, hnode⟩ := Option.bind_eq_some_iff.1 hu
      rwa [FileTree.resolve?_eq_some hr hplace] at hnode
    rw [hnames hnode, hnames (hsame ▸ hnode)]
  rw [listed, listed, roots, roots]
  split
  · rw [List.flatMap_singleton, List.flatMap_singleton]
    exact (Agree.files ha).same _ hbase
  · rw [List.flatMap_assoc, List.flatMap_assoc, List.filter_flatMap, List.filter_flatMap]
    refine List.flatMap_congr fun text htext => ?_
    rcases h text htext with hdescends | halike
    · obtain ⟨list, list', p, hagree, hp, heq, heq'⟩ := agree_root ha hbase hdescends
      rw [heq, heq']
      exact hagree.same p hp
    · rw [← halike.paths, List.filter_flatMap, List.filter_flatMap]
      refine List.flatMap_congr fun q hq => ?_
      exact FileTree.filter_files_eq ht ht'
        (leads_of_mem_root ht hbase.isAbsolute hq).isAbsolute (halike.places q hq)
        fun r hr => (hseen r hr).2

/-- The sources of a tree are found alike in another one that holds the same where they are. -/
theorem filter_admits (ht : t.Sound) (ht' : t'.Sound) (hbase : s.base.Straight)
    (h : s.KeepsIncludes t t')
    (hsame : ∀ r ∈ s.listed t, s.admits r = true → ∀ place, t.resolve? r = some place →
      t.node? place = t'.node? place) :
    (s.listed t).filter s.admits = (s.listed t).filter fun r =>
      s.admits r && ((t.find? r).isSome && t.find? r == t'.find? r) := by
  refine List.filter_congr fun r hr => ?_
  obtain ⟨-, place, content, hplace, hnode⟩ := exists_of_mem_listed ht hbase.isAbsolute hr
  have hsome : (t.find? r).isSome = true := by
    rw [FileTree.find?, hplace, Option.bind_some, hnode]
    rfl
  cases hadmits : s.admits r with
  | false => rfl
  | true =>
    rw [← find?_eq_of_mem_listed ht ht' hbase h hr (hsame r hr hadmits), hsome, beq_self_eq_true]
    rfl

/-- Sound trees have the same sources if they hold the same where these are, and if includes
that lead up stand for the same. -/
theorem files_congr (ht : t.Sound) (ht' : t'.Sound) (hbase : s.base.Straight)
    (h : s.KeepsIncludes t t')
    (hold : ∀ r ∈ s.listed t, s.admits r = true → ∀ place, t.resolve? r = some place →
      t.node? place = t'.node? place)
    (hnew : ∀ r ∈ s.listed t', s.admits r = true → ∀ place, t'.resolve? r = some place →
      t'.node? place = t.node? place) :
    s.files t = s.files t' := by
  have hswap : (fun r => s.admits r && ((t'.find? r).isSome && t'.find? r == t.find? r)) =
      fun r => s.admits r && ((t.find? r).isSome && t.find? r == t'.find? r) := by
    funext r
    by_cases heq : t.find? r = t'.find? r
    · rw [heq]
    · simp only [beq_eq_false_iff_ne.2 heq, beq_eq_false_iff_ne.2 (Ne.symm heq), Bool.and_false]
  show (((s.listed t).filter s.admits).map _).eraseDups =
    (((s.listed t').filter s.admits).map _).eraseDups
  rw [filter_admits ht ht' hbase h hold, filter_admits ht' ht hbase h.symm hnew, hswap,
    filter_listed ht ht' hbase h fun r hr => by simpa using (Bool.and_eq_true_iff.1 hr).2]

end SourceSettings

end FlashStrings
