import FlashStrings.FileTree
import FlashStrings.Proofs.SortedMap

/-!
# What a tree holds after a write

Steps that put a file in its place leave all directories where they are, so every
path that could be resolved before resolves to the same place afterwards.  From
this follows that a path holds the content that was written to it
(`FileStep.read?_performAll_ofContent`).
-/

namespace FlashStrings

namespace FileTree

/-! ## Nodes -/

theorem node?_put (t : FileTree) (place q : List String) (node : Node) :
    (t.put place node).node? q =
      if q = [] then some .directory else if q = place then some node else t.node? q := by
  by_cases hq : q = [] <;> simp [node?, put, hq]

theorem node?_erase (t : FileTree) (place q : List String) :
    (t.erase place).node? q =
      if q = [] then some .directory else if q = place then none else t.node? q := by
  by_cases hq : q = [] <;> simp [node?, erase, hq]

theorem node?_nil (t : FileTree) : t.node? [] = some .directory := rfl

/-! ## Walks -/

/-- The place that one text of a path leads to, from a directory. -/
def nextPlace (place : List String) (part : String) : List String :=
  if Path.isIdle part then place else if part = ".." then place.dropLast else place ++ [part]

theorem follow_cons (t : FileTree) (place : List String) (part : String) (parts : List String) :
    t.follow place (part :: parts) =
      if t.node? place = some .directory then t.follow (nextPlace place part) parts
      else none := by
  rw [follow, nextPlace]
  split
  · split
    · rfl
    · split <;> rfl
  · rfl

theorem follow_cons_eq_some_iff {t : FileTree} {place q : List String} {part : String}
    {parts : List String} : t.follow place (part :: parts) = some q ↔
      t.node? place = some .directory ∧ t.follow (nextPlace place part) parts = some q := by
  rw [follow_cons]
  split <;> simp [*]

/-- All directories of the first tree are directories of the second one, and
relative paths begin at the same place. -/
def KeepsDirectories (t t' : FileTree) : Prop :=
  t'.workingPlace = t.workingPlace ∧
    ∀ q, t.node? q = some .directory → t'.node? q = some .directory

theorem follow_of_keepsDirectories {t t' : FileTree} (h : KeepsDirectories t t')
    {place q : List String} {parts : List String} (hf : t.follow place parts = some q) :
    t'.follow place parts = some q := by
  induction parts generalizing place with
  | nil => exact hf
  | cons part parts ih =>
    obtain ⟨hdir, hrest⟩ := follow_cons_eq_some_iff.1 hf
    exact follow_cons_eq_some_iff.2 ⟨h.2 _ hdir, ih hrest⟩

theorem resolve?_of_keepsDirectories {t t' : FileTree} (h : KeepsDirectories t t') {p : Path}
    {q : List String} (hr : t.resolve? p = some q) : t'.resolve? p = some q := by
  rw [resolve?] at hr ⊢
  split at hr
  · cases hr
  · next hne =>
    rw [if_neg hne, start, h.1]
    exact follow_of_keepsDirectories h hr

/-! ## Files -/

theorem read?_eq_some_iff {t : FileTree} {p : Path} {content : Bytes} :
    t.read? p = some content ↔ ∃ q, t.resolve? p = some q ∧ t.node? q = some (.file content) := by
  rw [read?, find?]
  cases hr : t.resolve? p with
  | none => simp
  | some q =>
    rw [Option.bind_some]
    cases hn : t.node? q with
    | none => simp [hn]
    | some node => cases node <;> simp [hn]

theorem writable?_eq_some_iff {t : FileTree} {p : Path} {q : List String} :
    t.writable? p = some q ↔ t.resolve? p = some q ∧ t.node? q ≠ some .directory := by
  simp [writable?, Option.filter_eq_some_iff]

/-- Putting a file where no directory is keeps all directories. -/
theorem keepsDirectories_put {t : FileTree} {place : List String} (content : Bytes)
    (h : t.node? place ≠ some .directory) : KeepsDirectories t (t.put place (.file content)) := by
  refine ⟨rfl, fun q hq => ?_⟩
  have hne : q ≠ place := fun he => h (he ▸ hq)
  rw [node?_put, if_neg hne, hq, ite_self]

/-- Removing what is no directory keeps all directories. -/
theorem keepsDirectories_erase {t : FileTree} {place : List String}
    (h : t.node? place ≠ some .directory) : KeepsDirectories t (t.erase place) := by
  refine ⟨rfl, fun q hq => ?_⟩
  have hne : q ≠ place := fun he => h (he ▸ hq)
  rw [node?_erase, if_neg hne, hq, ite_self]

/-- A path holds the file that is put where it leads. -/
theorem read?_put {t : FileTree} {p : Path} {place : List String} {content : Bytes}
    (h : t.writable? p = some place) : (t.put place (.file content)).read? p = some content := by
  obtain ⟨hr, hd⟩ := writable?_eq_some_iff.1 h
  have hne : place ≠ [] := fun he => hd (he ▸ t.node?_nil)
  refine read?_eq_some_iff.2 ⟨place, ?_, ?_⟩
  · exact resolve?_of_keepsDirectories (keepsDirectories_put content hd) hr
  · rw [node?_put, if_neg hne, if_pos rfl]

end FileTree

namespace FileStep

open FileTree

/-- A temporary file that was written holds its content. -/
theorem read?_writeTemporary {t t' : FileTree} {p : Path} {content : Bytes}
    (h : (writeTemporary p content).perform t = (t', true)) : t'.read? p = some content := by
  rw [perform] at h
  split at h
  · next place hw =>
    obtain ⟨rfl, -⟩ := Prod.mk.inj h
    exact read?_put hw
  · simp at h

/-- A file that was replaced holds the content of the temporary file. -/
theorem read?_replace {t t' : FileTree} {temporary p : Path} {content : Bytes}
    (hc : t.read? temporary = some content)
    (h : (replace temporary p).perform t = (t', true)) : t'.read? p = some content := by
  obtain ⟨source, hs, hf⟩ := read?_eq_some_iff.1 hc
  have hd : t.node? source ≠ some .directory := by
    rw [hf]
    simp
  rw [perform, hs, hc] at h
  cases hw : t.writable? p with
  | none => simp [hw] at h
  | some place =>
    simp only [hw, Prod.mk.injEq, and_true] at h
    subst h
    obtain ⟨hr, hp⟩ := writable?_eq_some_iff.1 hw
    refine read?_put (writable?_eq_some_iff.2 ⟨?_, ?_⟩)
    · exact resolve?_of_keepsDirectories (keepsDirectories_erase hd) hr
    · have hne : place ≠ [] := fun he => hp (he ▸ t.node?_nil)
      rw [node?_erase, if_neg hne]
      split
      · simp
      · exact hp

/-! ## Steps one after the other -/

theorem performAll_cons {t t' : FileTree} {s : FileStep} {steps : List FileStep}
    (h : performAll t (s :: steps) = (t', none)) :
    ∃ t₁, s.perform t = (t₁, true) ∧ performAll t₁ steps = (t', none) := by
  rw [performAll] at h
  split at h
  · next t₁ hs => exact ⟨t₁, hs, h⟩
  · simp at h

theorem performAll_append {t t' : FileTree} {steps more : List FileStep}
    (h : performAll t (steps ++ more) = (t', none)) :
    ∃ t₁, performAll t steps = (t₁, none) ∧ performAll t₁ more = (t', none) := by
  induction steps generalizing t with
  | nil => exact ⟨t, rfl, h⟩
  | cons s steps ih =>
    obtain ⟨t₁, hs, h₁⟩ := performAll_cons h
    obtain ⟨t₂, h₂, hmore⟩ := ih h₁
    refine ⟨t₂, ?_, hmore⟩
    rw [performAll, hs]
    exact h₂

theorem performAll_append_of_eq {t t' : FileTree} {steps more : List FileStep}
    (h : performAll t steps = (t', none)) :
    performAll t (steps ++ more) = performAll t' more := by
  induction steps generalizing t with
  | nil =>
    obtain ⟨rfl, -⟩ := Prod.mk.inj h
    rfl
  | cons s steps ih =>
    obtain ⟨t₁, hs, h₁⟩ := performAll_cons h
    rw [List.cons_append, performAll, hs]
    exact ih h₁

/-- A path holds the content that steps without a failure gave it. -/
theorem read?_performAll_ofContent {t t' : FileTree} {p : Path} {content : Bytes}
    (h : performAll t (ofContent p content) = (t', none)) : t'.read? p = some content := by
  rw [ofContent] at h
  obtain ⟨t₁, -, h₁⟩ := performAll_append h
  obtain ⟨t₂, hwrite, h₂⟩ := performAll_cons h₁
  obtain ⟨t₃, hreplace, h₃⟩ := performAll_cons h₂
  obtain ⟨rfl, -⟩ := Prod.mk.inj h₃
  exact read?_replace (read?_writeTemporary hwrite) hreplace

end FileStep

end FlashStrings
