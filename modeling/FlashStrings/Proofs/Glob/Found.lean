import FlashStrings.Proofs.FileTree.Listing
import FlashStrings.Proofs.Glob.Components

/-!
# What patterns find is there

A pattern is followed through the tree, so each path that it finds is absolute and leads to
something (`Glob.leads_of_mem_find`).  Three components lead on, and each only to what is
there: a name by looking it up, the dots from a directory (`FileTree.Sound.has_join_dots`),
and wildcards by the members and what stands below them.
-/

namespace FlashStrings

open FlashStrings.Path (IsName)

variable {t : FileTree} {p q : Path}

/-! ## Paths that lead to something -/

namespace FileTree

/-- The path begins at the root and leads to something. -/
structure Leads (t : FileTree) (p : Path) : Prop where
  isAbsolute : p.isAbsolute = true
  has : t.has p = true

theorem Leads.exists_resolve? (h : t.Leads p) : ∃ place, t.resolve? p = some place := by
  obtain ⟨node, hnode⟩ := Option.isSome_iff_exists.1 h.has
  exact (Option.bind_eq_some_iff.1 hnode).imp fun _ => And.left

theorem has_of_resolve? {place : List String} (h : t.resolve? p = some place)
    (hsome : (t.node? place).isSome = true) : t.has p = true := by
  rw [has, find?, h, Option.bind_some, hsome]

theorem resolve?_of_hasDirectory (h : t.hasDirectory p = true) :
    ∃ place, t.resolve? p = some place ∧ t.node? place = some .directory :=
  Option.bind_eq_some_iff.1 (beq_iff_eq.1 h)

/-- Both kinds of dots lead somewhere from a directory. -/
theorem Sound.has_join_dots (ht : t.Sound) (hp : p.isAbsolute = true)
    (hdir : t.hasDirectory p = true) {text : String} (h : text = ".." ∨ text = ".") :
    t.has (p.join text) = true := by
  obtain ⟨place, hplace, hnode⟩ := resolve?_of_hasDirectory hdir
  have habove : t.node? place.dropLast = some .directory := by
    rcases eq_or_ne place.dropLast place with heq | hne
    · rw [heq, hnode]
    · exact ht.isDirectory_of_isPrefix (List.dropLast_prefix place) hne (by rw [hnode]; rfl)
  have hresolve : ∀ text : String, '/' ∉ text.toList →
      t.resolve? (p.join text) = some (nextPlace place text) := by
    intro text hslash
    rw [resolve?_join t hp (Path.isAbsolute_eq_false_of_noSlash hslash), hplace,
      Path.parts_of_noSlash hslash, Option.bind_some, follow_cons, if_pos hnode, follow]
  rcases h with rfl | rfl
  · refine has_of_resolve? (hresolve _ (by decide)) ?_
    show (t.node? place.dropLast).isSome = true
    rw [habove]
    rfl
  · refine has_of_resolve? (hresolve _ (by decide)) ?_
    show (t.node? place).isSome = true
    rw [hnode]
    rfl

theorem Sound.leads_of_mem_below (ht : t.Sound) {place names : List String} {node : Node}
    (hp : p.isAbsolute = true) (hplace : t.resolve? p = some place)
    (h : (names, node) ∈ t.below place) : t.Leads (names.foldl Path.join p) := by
  have hnode := (ht.get?_eq_some_iff.1 (mem_below.1 h)).2
  have hsome : (t.node? (place ++ names)).isSome = true := by rw [hnode]; rfl
  exact ⟨isAbsolute_foldl_join hp _, has_of_resolve? (ht.resolve?_foldl_join hp hplace hsome) hsome⟩

theorem Sound.leads_of_mem_members (ht : t.Sound) (hp : p.isAbsolute = true) {name : String}
    (h : name ∈ t.members p) : t.Leads (p.join name) := by
  rw [members] at h
  split at h
  · cases h
  · next place hplace =>
    obtain ⟨⟨names, node⟩, hbelow, hname⟩ := List.mem_filterMap.1 h
    match names with
    | [only] =>
      obtain rfl := Option.some.inj hname
      exact ht.leads_of_mem_below hp hplace hbelow
    | [] | _ :: _ :: _ => cases hname

theorem Sound.leads_of_mem_descendants (ht : t.Sound) (hp : p.isAbsolute = true)
    (h : q ∈ t.descendants p) : t.Leads q := by
  rw [descendants] at h
  split at h
  · cases h
  · next place hplace =>
    obtain ⟨⟨names, node⟩, hbelow, hq⟩ := List.mem_filterMap.1 h
    simp only at hq
    split at hq
    · cases hq
    · obtain rfl := Option.some.inj hq
      exact ht.leads_of_mem_below hp hplace hbelow

end FileTree

/-! ## Patterns -/

namespace Glob

open PathPattern (dots)

theorem eq_of_mem_dots {tokens : List Token} {name : String} (h : name ∈ dots tokens) :
    name = ".." ∨ name = "." := by
  rw [dots] at h
  split at h
  · simpa using (List.mem_filter.1 h).1
  · cases h

theorem leads_of_mem_expand (ht : t.Sound) (patterns : List PathPattern) (hp : t.Leads p)
    (h : q ∈ expand t patterns p) : t.Leads q := by
  fun_induction expand t patterns p with
  | case1 p =>
    obtain rfl := List.mem_singleton.1 h
    exact hp
  | case2 text patterns p found hfound ih =>
    refine ih ⟨Path.isAbsolute_join hp.isAbsolute text, ?_⟩ h
    simp only [found] at hfound
    split at hfound
    · next hdots =>
      exact ht.has_join_dots hp.isAbsolute hfound (by simpa [or_comm] using hdots)
    · exact hfound
  | case3 | case5 => cases h
  | case4 tokens patterns p hdir names ih =>
    obtain ⟨name, hname, hq⟩ := List.mem_flatMap.1 h
    refine ih name ?_ hq
    rcases List.mem_append.1 hname with hdot | hmember
    · exact ⟨Path.isAbsolute_join hp.isAbsolute name,
        ht.has_join_dots hp.isAbsolute hdir (eq_of_mem_dots hdot)⟩
    · exact ht.leads_of_mem_members hp.isAbsolute (List.mem_of_mem_filter hmember)
  | case6 p => exact ht.leads_of_mem_descendants hp.isAbsolute (List.mem_of_mem_filter h)
  | case7 pattern patterns p ih =>
    obtain ⟨x, hx, hq⟩ := List.mem_flatMap.1 h
    split at hq
    · exact ih x (ht.leads_of_mem_descendants hp.isAbsolute hx) hq
    · cases hq

/-- What a pattern finds is absolute and leads to something. -/
theorem leads_of_mem_find (ht : t.Sound) {pattern : Path} {found : List Path}
    (h : find t pattern = .ok found) (hq : q ∈ found) : t.Leads q := by
  have hroot : t.Leads ⟨"/"⟩ := ⟨rfl, rfl⟩
  rw [find_eq] at h
  obtain ⟨components, -, rfl⟩ := map_eq_ok h
  split at hq
  · exact leads_of_mem_expand ht components hroot (List.mem_of_mem_filter hq)
  · exact leads_of_mem_expand ht components hroot hq

end Glob

end FlashStrings
