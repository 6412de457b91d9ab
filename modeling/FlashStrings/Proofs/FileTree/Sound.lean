import Mathlib.Data.List.Induction
import FlashStrings.Proofs.FileTree
import FlashStrings.Proofs.Path.Straight

/-!
# Sound trees

A tree is *sound* when everything in it has a proper name and stands in a
directory, as in a file system.  In a sound tree all that is above something is a
directory (`FileTree.Sound.isDirectory_of_isPrefix`), so the path to a member of a
directory leads to that member (`FileTree.Sound.resolve?_foldl_join`).

A straight path leads to its names or nowhere (`FileTree.resolve?_eq_some`), and
where it leads depends on the directories above this place alone
(`FileTree.resolve?_congr`).  Absolute paths with the same names lead to the same place
(`FileTree.place_eq_of_names_eq`).
-/

namespace FlashStrings

open FlashStrings.Path (IsName)

namespace FileTree

/-- Everything has a proper name and stands in a directory. -/
structure Sound (t : FileTree) : Prop where
  /-- The root is not stored. -/
  root : t.nodes.get? [] = none
  /-- Relative paths begin in a directory. -/
  working : t.node? t.workingPlace = some .directory
  /-- Places are made of names. -/
  isName : ∀ place, (t.node? place).isSome = true → ∀ name ∈ place, IsName name
  /-- Above everything is a directory. -/
  isDirectory : ∀ place name, (t.node? (place ++ [name])).isSome = true →
    t.node? place = some .directory

variable {t t' : FileTree} {p : Path} {place q d : List String}

/-! ## What stands above a place -/

namespace Sound

theorem get?_eq_some_iff (h : t.Sound) {node : Node} :
    t.nodes.get? place = some node ↔ place ≠ [] ∧ t.node? place = some node := by
  by_cases hne : place = []
  · simp [hne, h.root]
  · simp [node?, hne]

/-- A tree is sound if every entry has a proper place. -/
theorem of_entries (hworking : t.node? t.workingPlace = some .directory)
    (h : ∀ e ∈ t.nodes.entries, e.1 ≠ [] ∧ (∀ name ∈ e.1, IsName name) ∧
      t.node? e.1.dropLast = some .directory) : t.Sound := by
  have hentry : ∀ place, place ≠ [] → (t.node? place).isSome = true →
      (∀ name ∈ place, IsName name) ∧ t.node? place.dropLast = some .directory := by
    intro place hne hsome
    obtain ⟨node, hnode⟩ := Option.isSome_iff_exists.1 hsome
    rw [node?, if_neg hne] at hnode
    exact (h _ (SortedMap.get?_eq_some_iff.1 hnode)).2
  refine ⟨?_, hworking, fun place hsome => ?_, fun place name hsome => ?_⟩
  · cases hroot : t.nodes.get? [] with
    | none => rfl
    | some node => exact absurd rfl (h _ (SortedMap.get?_eq_some_iff.1 hroot)).1
  · by_cases hne : place = []
    · rw [hne]
      exact fun _ hmem => absurd hmem List.not_mem_nil
    · exact (hentry place hne hsome).1
  · have hdir := (hentry (place ++ [name]) (by simp) hsome).2
    rwa [List.dropLast_concat] at hdir

/-- What is above something else is a directory. -/
theorem isDirectory_of_isPrefix (h : t.Sound) (hd : d <+: q) (hne : d ≠ q)
    (hq : (t.node? q).isSome = true) : t.node? d = some .directory := by
  induction q using List.reverseRecOn with
  | nil => exact absurd (List.prefix_nil.1 hd) hne
  | append_singleton q name ih =>
    have hdir := h.isDirectory q name hq
    rcases List.prefix_concat_iff.1 hd with heq | hd
    · exact absurd heq hne
    · by_cases heq : d = q
      · rw [heq, hdir]
      · exact ih hd heq (by rw [hdir]; rfl)

/-- Trees that hold the same at a place hold the same at all places above it. -/
theorem node?_eq_of_isPrefix (h : t.Sound) (h' : t'.Sound) (hd : d <+: q)
    (hq : (t.node? q).isSome = true) (heq : t.node? q = t'.node? q) : t.node? d = t'.node? d := by
  by_cases hne : d = q
  · rw [hne, heq]
  · rw [h.isDirectory_of_isPrefix hd hne hq, h'.isDirectory_of_isPrefix hd hne (heq ▸ hq)]

end Sound

/-! ## Walks -/

theorem follow_append (t : FileTree) (place : List String) (parts more : List String) :
    t.follow place (parts ++ more) = (t.follow place parts).bind (t.follow · more) := by
  induction parts generalizing place with
  | nil => rfl
  | cons part parts ih =>
    rw [List.cons_append, follow_cons, follow_cons]
    split
    · exact ih _
    · rfl

/-- A walk along something begins in a directory. -/
theorem isDirectory_of_follow {parts : List String} (hne : parts ≠ [])
    (h : t.follow place parts = some q) : t.node? place = some .directory := by
  obtain ⟨part, parts, rfl⟩ := List.exists_cons_of_ne_nil hne
  exact (follow_cons_eq_some_iff.1 h).1

theorem nextPlace_of_ne_up (place : List String) {part : String} (h : part ≠ "..") :
    nextPlace place part = place ++ [part].filter (!Path.isIdle ·) := by
  rw [nextPlace, if_neg h]
  split
  · next hidle => simp [hidle]
  · next hidle => simp [hidle]

/-- Where a walk ends, if it goes through, does not depend on the tree. -/
theorem follow_eq_foldl {parts : List String} (h : t.follow place parts = some q) :
    q = (parts.filter (!Path.isIdle ·)).foldl nextPlace place := by
  induction parts generalizing place with
  | nil => exact (Option.some.inj h).symm
  | cons part parts ih =>
    rw [ih (follow_cons_eq_some_iff.1 h).2]
    cases hidle : Path.isIdle part with
    | true => rw [nextPlace, hidle, if_pos rfl, List.filter_cons_of_neg (by simp [hidle])]
    | false => rw [List.filter_cons_of_pos (by simp [hidle]), List.foldl_cons]

/-- A walk that does not lead up ends at the names on its way. -/
theorem follow_eq_some {parts : List String} (hup : ".." ∉ parts)
    (h : t.follow place parts = some q) : q = place ++ parts.filter (!Path.isIdle ·) := by
  induction parts generalizing place with
  | nil =>
    obtain rfl := Option.some.inj h
    exact (List.append_nil _).symm
  | cons part parts ih =>
    obtain ⟨hpart, hparts⟩ := not_or.1 (mt List.mem_cons.2 hup)
    obtain ⟨-, hrest⟩ := follow_cons_eq_some_iff.1 h
    rw [ih hparts hrest, nextPlace_of_ne_up place (Ne.symm hpart), List.append_assoc,
      ← List.filter_append, List.singleton_append]

/-- A walk that does not lead up meets only what is above its end. -/
theorem follow_congr {parts : List String} (hup : ".." ∉ parts)
    (hsame : ∀ d, d <+: q → t.node? d = t'.node? d) (h : t.follow place parts = some q) :
    t'.follow place parts = some q := by
  induction parts generalizing place with
  | nil => exact h
  | cons part parts ih =>
    have hparts := fun hmem => hup (List.mem_cons_of_mem _ hmem)
    have hplace : place <+: q := ⟨_, (follow_eq_some hup h).symm⟩
    obtain ⟨hdir, hrest⟩ := follow_cons_eq_some_iff.1 h
    exact follow_cons_eq_some_iff.2 ⟨hsame place hplace ▸ hdir, ih hparts hrest⟩

/-! ## Straight paths in a tree -/

theorem resolve?_of_isAbsolute (t : FileTree) (hp : p.isAbsolute = true) :
    t.resolve? p = t.follow [] p.parts := by
  have hne : p.text.isEmpty = false := by simpa using Path.text_ne_of_isAbsolute hp
  rw [resolve?, hne, if_neg Bool.false_ne_true, start, hp, if_pos rfl]

/-- Absolute paths with the same names lead to one place in all trees, if they lead anywhere. -/
theorem place_eq_of_names_eq {p' : Path} {q' : List String} (hp : p.isAbsolute = true)
    (hp' : p'.isAbsolute = true) (hnames : p.names = p'.names) (h : t.resolve? p = some q)
    (h' : t'.resolve? p' = some q') : q = q' := by
  rw [resolve?_of_isAbsolute _ hp] at h
  rw [resolve?_of_isAbsolute _ hp'] at h'
  rw [follow_eq_foldl h, follow_eq_foldl h']
  exact congrArg _ hnames

/-- A straight path leads to its names, if it leads anywhere. -/
theorem resolve?_eq_some (hp : p.Straight) (h : t.resolve? p = some q) : q = p.names := by
  rw [resolve?_of_isAbsolute t hp.isAbsolute] at h
  exact follow_eq_some hp.notUp h

/-- A straight path leads to one place in all trees with the same above it. -/
theorem resolve?_congr (hp : p.Straight) (hsame : ∀ d, d <+: p.names → t.node? d = t'.node? d)
    (h : t.resolve? p = some p.names) : t'.resolve? p = some p.names := by
  rw [resolve?_of_isAbsolute _ hp.isAbsolute] at h ⊢
  exact follow_congr hp.notUp hsame h

/-- Sound trees that hold the same where a straight path leads find the same there. -/
theorem find?_congr (ht : t.Sound) (ht' : t'.Sound) (hp : p.Straight)
    (h : t.node? p.names = t'.node? p.names) : t.find? p = t'.find? p := by
  have hfind : ∀ {u v : FileTree}, u.Sound → v.Sound → u.node? p.names = v.node? p.names →
      ∀ node, u.find? p = some node → v.find? p = some node := by
    intro u v hu hv heq node hnode
    obtain ⟨q, hq, hnode⟩ := Option.bind_eq_some_iff.1 hnode
    obtain rfl := resolve?_eq_some hp hq
    refine Option.bind_eq_some_iff.2 ⟨_, resolve?_congr hp (fun d hd => ?_) hq, heq ▸ hnode⟩
    exact hu.node?_eq_of_isPrefix hv hd (by rw [hnode]; rfl) heq
  exact Option.ext fun node => ⟨hfind ht ht' h node, hfind ht' ht h.symm node⟩

/-- A walk along a joined path goes on from where the path leads. -/
theorem resolve?_join (t : FileTree) (hp : p.isAbsolute = true) {tail : String}
    (h : Path.isAbsolute ⟨tail⟩ = false) :
    t.resolve? (p.join tail) = (t.resolve? p).bind (t.follow · (Path.parts ⟨tail⟩)) := by
  obtain ⟨init, hinit, hparts⟩ := Path.parts_join (Path.text_ne_of_isAbsolute hp) h
  rw [resolve?_of_isAbsolute t hp, resolve?_of_isAbsolute t (Path.isAbsolute_join hp tail), hparts,
    follow_append]
  rcases hinit with hinit | hinit
  · rw [hinit]
  · -- the path ends with a slash, so the place before has to be a directory
    rw [hinit, follow_append, Option.bind_assoc]
    congr 1
    funext place
    obtain ⟨part, parts, htail⟩ : ∃ part parts, Path.parts ⟨tail⟩ = part :: parts :=
      List.exists_cons_of_ne_nil fun he => cutAt_ne_nil '/' tail.toList (List.map_eq_nil_iff.1 he)
    have hslash : t.follow place [""] =
        if t.node? place = some .directory then some place else none := rfl
    rw [hslash]
    split
    · rfl
    · next hdir => rw [htail, follow, if_neg hdir, Option.bind_none]

theorem resolve?_join_of_isName (t : FileTree) (hp : p.isAbsolute = true) {name : String}
    (h : IsName name) : t.resolve? (p.join name) = (t.resolve? p).bind fun place =>
      if t.node? place = some .directory then some (place ++ [name]) else none := by
  rw [resolve?_join t hp (Path.isAbsolute_eq_false_of_noSlash h.noSlash),
    Path.parts_of_noSlash h.noSlash]
  congr 1
  funext place
  rw [follow, h.notIdle, if_neg Bool.false_ne_true, if_neg h.notUp]
  rfl

/-! ## Paths of members -/

theorem straight_foldl_join {names : List String} (hp : p.Straight)
    (h : ∀ name ∈ names, IsName name) :
    (names.foldl Path.join p).Straight ∧ (names.foldl Path.join p).names = p.names ++ names := by
  induction names generalizing p with
  | nil => exact ⟨hp, (List.append_nil _).symm⟩
  | cons name names ih =>
    have hname := h name List.mem_cons_self
    obtain ⟨hstraight, hnames⟩ := ih (hp.join_of_noSlash hname.noSlash hname.notUp) fun x hx =>
      h x (List.mem_cons_of_mem _ hx)
    refine ⟨hstraight, ?_⟩
    rw [List.foldl_cons, hnames, Path.names_join (Path.text_ne_of_isAbsolute hp.isAbsolute)
      (Path.isAbsolute_eq_false_of_noSlash hname.noSlash), hname.names_eq, List.append_assoc]
    rfl

/-- The path to what stands below a path leads there. -/
theorem Sound.resolve?_foldl_join (ht : t.Sound) {names : List String} (hp : p.isAbsolute = true)
    (hr : t.resolve? p = some place) (h : (t.node? (place ++ names)).isSome = true) :
    t.resolve? (names.foldl Path.join p) = some (place ++ names) := by
  induction names generalizing p place with
  | nil => rwa [List.append_nil]
  | cons name names ih =>
    have hname : IsName name := ht.isName _ h name (by simp)
    have hdir : t.node? place = some .directory :=
      ht.isDirectory_of_isPrefix (List.prefix_append ..) (by simp) h
    have hsplit : place ++ name :: names = place ++ [name] ++ names := by simp
    rw [hsplit] at h ⊢
    refine ih (Path.isAbsolute_join hp name) ?_ h
    rw [resolve?_join_of_isName t hp hname, hr, Option.bind_some, if_pos hdir]

/-! ## What stands below a place -/

theorem mem_below {names : List String} {node : Node} :
    (names, node) ∈ t.below place ↔ t.nodes.get? (place ++ names) = some node := by
  rw [SortedMap.get?_eq_some_iff, below, List.mem_filterMap]
  constructor
  · rintro ⟨⟨q, node'⟩, hmem, h⟩
    simp only at h
    split at h
    · next hprefix =>
      obtain ⟨rest, rfl⟩ := List.isPrefixOf_iff_prefix.1 hprefix
      obtain ⟨rfl, rfl⟩ := Prod.mk.inj (Option.some.inj h)
      rwa [List.drop_left]
    · cases h
  · intro hmem
    exact ⟨_, hmem, by simp [List.isPrefixOf_iff_prefix]⟩

end FileTree

end FlashStrings
