import FlashStrings.Proofs.FileTree.Sound
import FlashStrings.Proofs.Text.Utf8

/-!
# Replacing a file

A file is replaced in three steps: the directories above it are made, the content
goes to a temporary file, and this one takes the place of the file.  Afterwards
the path holds the content, nothing but the file and the temporary one differs,
and no other file has come up (`FileStep.replaced_of_performAll`).  Doing it again
changes nothing (`FileStep.performAll_ofContent_again`).
-/

namespace FlashStrings

open FlashStrings.Path (IsName)

namespace FileTree

variable {t t' t'' : FileTree} {p : Path} {place q above : List String} {content : Bytes}

/-! ## Sound changes -/

theorem KeepsDirectories.refl (t : FileTree) : KeepsDirectories t t := ⟨rfl, fun _ h => h⟩

theorem KeepsDirectories.trans (h : KeepsDirectories t t') (h' : KeepsDirectories t' t'') :
    KeepsDirectories t t'' := ⟨h'.1.trans h.1, fun q hq => h'.2 q (h.2 q hq)⟩

/-- A named member of a directory may be put there, but no file for a directory. -/
theorem Sound.put (h : t.Sound) {name : String} {node : Node}
    (habove : t.node? above = some .directory) (hname : IsName name)
    (hnode : t.node? (above ++ [name]) = some .directory → node = .directory) :
    (t.put (above ++ [name]) node).Sound where
  root := by
    rw [FileTree.put, SortedMap.get?_insert, if_neg (by simp)]
    exact h.root
  working := by
    show (t.put (above ++ [name]) node).node? t.workingPlace = _
    rw [node?_put]
    split
    · rfl
    · split
      · next heq =>
        rw [hnode (heq ▸ h.working)]
      · exact h.working
  isName := by
    intro q hq
    rw [node?_put] at hq
    split at hq
    · next hnil =>
      rw [hnil]
      exact fun _ hmem => absurd hmem List.not_mem_nil
    · split at hq
      · next heq =>
        rw [heq]
        intro x hx
        rcases List.mem_append.1 hx with hx | hx
        · exact h.isName above (by rw [habove]; rfl) x hx
        · rwa [List.mem_singleton.1 hx]
      · exact h.isName q hq
  isDirectory := by
    intro q x hq
    rw [node?_put, if_neg (by simp)] at hq
    rw [node?_put]
    split
    · rfl
    · split at hq
      · next heq =>
        obtain ⟨rfl, -⟩ := List.append_inj' heq rfl
        rw [if_neg (by simp), habove]
      · have hdir := h.isDirectory q x hq
        split
        · next heq => rw [hnode (heq ▸ hdir)]
        · exact hdir

theorem Sound.erase (h : t.Sound) (hplace : t.node? place ≠ some .directory) :
    (t.erase place).Sound where
  root := by
    rw [FileTree.erase, SortedMap.get?_erase, h.root, ite_self]
  working := (keepsDirectories_erase hplace).2 _ h.working
  isName := by
    intro q hq
    rw [node?_erase] at hq
    split at hq
    · next hnil =>
      rw [hnil]
      exact fun _ hmem => absurd hmem List.not_mem_nil
    · split at hq
      · cases hq
      · exact h.isName q hq
  isDirectory := by
    intro q x hq
    rw [node?_erase, if_neg (by simp)] at hq
    split at hq
    · cases hq
    · exact (keepsDirectories_erase hplace).2 q (h.isDirectory q x hq)

/-! ## Texts -/

/-- A path leads to a text if it leads to the bytes of the text. -/
theorem readText?_eq_some_iff {text : String} :
    t.readText? p = some text ↔ t.read? p = some (Utf8.encode text) := by
  rw [readText?, Option.bind_eq_some_iff]
  simp only [Utf8.decode?_eq_some_iff, exists_eq_right]

/-! ## Where a path may be written -/

/-- A place of proper names below directories. -/
structure Reachable (t : FileTree) (place : List String) : Prop where
  /-- It is made of names. -/
  isName : ∀ name ∈ place, IsName name
  /-- All above it are directories. -/
  isDirectory : ∀ d, d <+: place → d ≠ place → t.node? d = some .directory

theorem Sound.reachable (h : t.Sound) (hq : (t.node? q).isSome = true) : t.Reachable q :=
  ⟨h.isName q hq, fun _ hd hne => h.isDirectory_of_isPrefix hd hne hq⟩

theorem Reachable.nextPlace (h : t.Reachable place) (hdir : t.node? place = some .directory)
    {part : String} (hpart : '/' ∉ part.toList) : t.Reachable (nextPlace place part) := by
  rw [FileTree.nextPlace]
  split
  · exact h
  · next hidle =>
    split
    · refine ⟨fun x hx => ?_, fun d hd hne => ?_⟩
      · exact h.isName x ((List.dropLast_sublist place).subset hx)
      · refine h.isDirectory d (hd.trans (List.dropLast_prefix place)) fun heq => hne ?_
        exact List.IsPrefix.eq_of_length_le hd (heq ▸ (List.dropLast_sublist d).length_le)
    · next hup =>
      refine ⟨fun x hx => ?_, fun d hd hne => ?_⟩
      · rcases List.mem_append.1 hx with hx | hx
        · exact h.isName x hx
        · rw [List.mem_singleton.1 hx]
          exact ⟨by simpa using hidle, hup, hpart⟩
      · rcases List.prefix_concat_iff.1 hd with rfl | hd
        · exact absurd rfl hne
        · by_cases heq : d = place
          · rw [heq, hdir]
          · exact h.isDirectory d hd heq

theorem Reachable.follow (h : t.Reachable place) {parts : List String}
    (hparts : ∀ part ∈ parts, '/' ∉ part.toList) (hf : t.follow place parts = some q) :
    t.Reachable q := by
  induction parts generalizing place with
  | nil =>
    obtain rfl := Option.some.inj hf
    exact h
  | cons part parts ih =>
    obtain ⟨hpart, hrest⟩ := List.forall_mem_cons.1 hparts
    obtain ⟨hdir, hf⟩ := follow_cons_eq_some_iff.1 hf
    exact ih (h.nextPlace hdir hpart) hrest hf

theorem Sound.reachable_of_resolve? (h : t.Sound) (hr : t.resolve? p = some q) :
    t.Reachable q := by
  rw [resolve?] at hr
  split at hr
  · cases hr
  · have hstart : t.Reachable (t.start p) := by
      rw [start]
      split
      · exact h.reachable rfl
      · exact h.reachable (by rw [h.working]; rfl)
    exact hstart.follow (fun _ => Path.noSlash_of_mem_parts) hr

/-- A tree stays sound when a file is put where a path leads. -/
theorem Sound.put_writable (h : t.Sound) (hw : t.writable? p = some place) :
    (t.put place (.file content)).Sound := by
  obtain ⟨hr, hdir⟩ := writable?_eq_some_iff.1 hw
  have hreach := h.reachable_of_resolve? hr
  rcases List.eq_nil_or_concat place with rfl | ⟨above, name, rfl⟩
  · exact absurd rfl hdir
  · rw [List.concat_eq_append] at *
    exact h.put (hreach.isDirectory above (List.prefix_append ..) (by simp))
      (hreach.isName name (by simp)) fun h => absurd h hdir

/-! ## Making directories -/

/-- Nothing changed but that some directories were made. -/
structure AddsDirectories (t t' : FileTree) : Prop where
  /-- Relative paths begin at the same place. -/
  workingPlace : t'.workingPlace = t.workingPlace
  /-- What is new is a directory. -/
  node? : ∀ q, t'.node? q = t.node? q ∨ t.node? q = none ∧ t'.node? q = some .directory

theorem AddsDirectories.refl (t : FileTree) : AddsDirectories t t := ⟨rfl, fun _ => .inl rfl⟩

theorem AddsDirectories.trans (h : AddsDirectories t t') (h' : AddsDirectories t' t'') :
    AddsDirectories t t'' := by
  refine ⟨h'.workingPlace.trans h.workingPlace, fun q => ?_⟩
  rcases h'.node? q with hq' | ⟨hnone, hdir⟩
  · rw [hq']
    exact h.node? q
  · rcases h.node? q with hq | ⟨hnone', hdir'⟩
    · exact .inr ⟨hq ▸ hnone, hdir⟩
    · rw [hdir'] at hnone
      cases hnone

theorem AddsDirectories.keepsDirectories (h : AddsDirectories t t') : KeepsDirectories t t' := by
  refine ⟨h.workingPlace, fun q hq => ?_⟩
  rcases h.node? q with heq | ⟨hnone, -⟩
  · rw [heq, hq]
  · rw [hnone] at hq
    cases hq

theorem AddsDirectories.file_iff (h : AddsDirectories t t') :
    t'.node? q = some (.file content) ↔ t.node? q = some (.file content) := by
  rcases h.node? q with heq | ⟨hnone, hdir⟩
  · rw [heq]
  · simp [hnone, hdir]

theorem addsDirectories_put (h : t.node? place = none) :
    AddsDirectories t (t.put place .directory) := by
  refine ⟨rfl, fun q => ?_⟩
  rw [node?_put]
  split
  · next hnil =>
    rw [hnil]
    exact .inl rfl
  · split
    · next heq => exact .inr ⟨heq ▸ h, rfl⟩
    · exact .inl rfl

/-- What a walk that goes through does first: it may make the directory that it
enters. -/
theorem makeDirectories_cons {part : String} {parts : List String}
    (h : t.makeDirectories place (part :: parts) = (t', true)) :
    t.node? place = some .directory ∧
      ∃ t₁ : FileTree, t₁.makeDirectories (nextPlace place part) parts = (t', true) ∧
        (t₁ = t ∨ Path.isIdle part = false ∧ part ≠ ".." ∧ t.node? (place ++ [part]) = none ∧
          t₁ = t.put (place ++ [part]) .directory) := by
  rw [makeDirectories] at h
  rw [nextPlace]
  split at h
  · next hdir =>
    refine ⟨hdir, ?_⟩
    split at h
    · next hidle => exact ⟨t, by rwa [if_pos hidle], .inl rfl⟩
    · next hidle =>
      rw [if_neg hidle]
      split at h
      · next hup => exact ⟨t, by rwa [if_pos hup], .inl rfl⟩
      · next hup =>
        rw [if_neg hup]
        dsimp only at h
        split at h
        · next hnone => exact ⟨_, h, .inr ⟨eq_false_of_ne_true hidle, hup, hnone, rfl⟩⟩
        · exact ⟨t, h, .inl rfl⟩
  · cases (Prod.mk.inj h).2

/-- A walk into a directory that is there makes none. -/
theorem makeDirectories_cons_of_isDirectory {part : String} (parts : List String)
    (hdir : t.node? place = some .directory)
    (hnext : t.node? (nextPlace place part) = some .directory) :
    t.makeDirectories place (part :: parts) = t.makeDirectories (nextPlace place part) parts := by
  rw [makeDirectories, if_pos hdir]
  rw [nextPlace] at hnext ⊢
  split
  · rfl
  · next hidle =>
    rw [if_neg hidle] at hnext
    split
    · rfl
    · next hup =>
      rw [if_neg hup] at hnext
      simp only [hnext]

theorem addsDirectories_makeDirectories {parts : List String}
    (h : t.makeDirectories place parts = (t', true)) : AddsDirectories t t' := by
  induction parts generalizing t place with
  | nil =>
    obtain ⟨rfl, -⟩ := Prod.mk.inj h
    exact .refl t
  | cons part parts ih =>
    obtain ⟨-, t₁, h₁, rfl | ⟨-, -, hnone, rfl⟩⟩ := makeDirectories_cons h
    · exact ih h₁
    · exact (addsDirectories_put hnone).trans (ih h₁)

theorem Sound.makeDirectories (ht : t.Sound) {parts : List String}
    (hparts : ∀ part ∈ parts, '/' ∉ part.toList)
    (h : t.makeDirectories place parts = (t', true)) : t'.Sound := by
  induction parts generalizing t place with
  | nil =>
    obtain ⟨rfl, -⟩ := Prod.mk.inj h
    exact ht
  | cons part parts ih =>
    obtain ⟨hpart, hrest⟩ := List.forall_mem_cons.1 hparts
    obtain ⟨hdir, t₁, h₁, rfl | ⟨hidle, hup, -, rfl⟩⟩ := makeDirectories_cons h
    · exact ih ht hrest h₁
    · exact ih (ht.put hdir ⟨hidle, hup, hpart⟩ fun _ => rfl) hrest h₁

/-- A walk that went through began in a directory. -/
theorem isDirectory_of_makeDirectories {parts : List String}
    (h : t.makeDirectories place parts = (t', true)) : t'.node? place = some .directory := by
  cases parts with
  | nil =>
    obtain ⟨rfl, hdir⟩ := Prod.mk.inj h
    exact of_decide_eq_true hdir
  | cons part parts =>
    exact (addsDirectories_makeDirectories h).keepsDirectories.2 _ (makeDirectories_cons h).1

/-- Directories that are there already are not made. -/
theorem makeDirectories_again {parts : List String}
    (h : t.makeDirectories place parts = (t', true)) (hkeeps : KeepsDirectories t' t'') :
    t''.makeDirectories place parts = (t'', true) := by
  induction parts generalizing t place with
  | nil =>
    obtain ⟨rfl, hdir⟩ := Prod.mk.inj h
    rw [makeDirectories]
    exact congrArg _ (decide_eq_true (hkeeps.2 _ (of_decide_eq_true hdir)))
  | cons part parts ih =>
    obtain ⟨-, t₁, h₁, -⟩ := makeDirectories_cons h
    rw [makeDirectories_cons_of_isDirectory parts
      (hkeeps.2 _ (isDirectory_of_makeDirectories h))
      (hkeeps.2 _ (isDirectory_of_makeDirectories h₁))]
    exact ih h₁

end FileTree

namespace FileStep

open FileTree

variable {t t' : FileTree} {p : Path} {content : Bytes} {text : String}

/-! ## The steps -/

/-- The step that makes the directories above a path. -/
def directorySteps (p : Path) : List FileStep :=
  match p.parent? with
  | some above => if above.text.isEmpty then [] else [makeDirectory above]
  | none => []

theorem ofContent_eq (p : Path) (content : Bytes) : ofContent p content =
    directorySteps p ++ [writeTemporary (temporary p) content, replace (temporary p) p] := rfl

theorem ofContent_ne_nil (p : Path) (content : Bytes) : ofContent p content ≠ [] := by
  rw [ofContent_eq]
  exact List.append_ne_nil_of_right_ne_nil _ (List.cons_ne_nil _ _)

theorem directorySteps_eq (p : Path) :
    directorySteps p = [] ∨ ∃ above, directorySteps p = [makeDirectory above] := by
  rw [directorySteps]
  split
  · split
    · exact .inl rfl
    · exact .inr ⟨_, rfl⟩
  · exact .inl rfl

/-- The directories above a path are made, and no second time. -/
theorem performAll_directorySteps (h : performAll t (directorySteps p) = (t', none)) :
    t.AddsDirectories t' ∧ (t.Sound → t'.Sound) ∧
      ∀ t'', t'.KeepsDirectories t'' → performAll t'' (directorySteps p) = (t'', none) := by
  rcases directorySteps_eq p with hnil | ⟨above, habove⟩
  · rw [hnil] at h ⊢
    obtain ⟨rfl, -⟩ := Prod.mk.inj h
    exact ⟨.refl t, id, fun _ _ => rfl⟩
  · rw [habove] at h ⊢
    obtain ⟨t₁, hmake, hdone⟩ := performAll_cons h
    obtain ⟨rfl, -⟩ := Prod.mk.inj hdone
    refine ⟨addsDirectories_makeDirectories hmake, fun ht => ?_, fun t'' hkeeps => ?_⟩
    · exact ht.makeDirectories (fun _ => Path.noSlash_of_mem_parts) hmake
    · have hagain := makeDirectories_again hmake hkeeps
      have hstart : t''.start above = t.start above := by
        have hadds := addsDirectories_makeDirectories hmake
        rw [start, start, hkeeps.1, hadds.workingPlace]
      rw [performAll, perform, hstart, hagain]
      rfl

/-! ## What the steps leave -/

/-- The tree with a file at a place and nothing at the place of its temporary file. -/
def settled (t : FileTree) (temp place : List String) (content : Bytes) : FileTree :=
  ((t.put temp (.file content)).erase temp).put place (.file content)

/-- The trees on the way of a replacement. -/
theorem performAll_ofContent (h : performAll t (ofContent p content) = (t', none)) :
    ∃ t₁ place temp, performAll t (directorySteps p) = (t₁, none) ∧
      t₁.writable? (temporary p) = some temp ∧
      (t₁.put temp (.file content)).writable? p = some place ∧
      t' = settled t₁ temp place content := by
  rw [ofContent_eq] at h
  obtain ⟨t₁, hdirs, h₁⟩ := performAll_append h
  obtain ⟨t₂, hwrite, h₂⟩ := performAll_cons h₁
  obtain ⟨t₃, hreplace, h₃⟩ := performAll_cons h₂
  obtain ⟨rfl, -⟩ := Prod.mk.inj h₃
  have hread := read?_writeTemporary hwrite
  rw [perform] at hwrite
  split at hwrite
  · next temp htemp =>
    obtain ⟨rfl, -⟩ := Prod.mk.inj hwrite
    obtain ⟨hr, hdir⟩ := writable?_eq_some_iff.1 htemp
    have hr' := resolve?_of_keepsDirectories (keepsDirectories_put content hdir) hr
    rw [perform, hr', hread] at hreplace
    cases hw : (t₁.put temp (.file content)).writable? p with
    | none => simp [hw] at hreplace
    | some place =>
      simp only [hw, Prod.mk.injEq, and_true] at hreplace
      exact ⟨t₁, place, temp, hdirs, htemp, hw, hreplace.symm⟩
  · simp at hwrite

/-- A path holds a text, and but for directories and the temporary file nothing
else has changed. -/
structure Replaced (t t' : FileTree) (p : Path) (text : String) : Prop where
  /-- All directories are kept. -/
  keeps : t.KeepsDirectories t'
  /-- The tree stays sound. -/
  sound : t.Sound → t'.Sound
  /-- The path holds the text. -/
  reads : t'.readText? p = some text
  /-- Only the path leads to a new file. -/
  new : ∀ q c, t'.node? q = some (.file c) → t.node? q = some (.file c) ∨ t'.resolve? p = some q
  /-- All files are kept but for these two. -/
  old : ∀ q c, t.node? q = some (.file c) → t'.resolve? p ≠ some q →
    t'.resolve? (temporary p) ≠ some q → t'.node? q = some (.file c)

theorem Replaced.refl (h : t.readText? p = some text) : Replaced t t p text :=
  ⟨.refl t, id, h, fun _ _ hq => .inl hq, fun _ _ hq _ _ => hq⟩

theorem node?_settled {temp place q : List String} (hq : q ≠ []) :
    (settled t temp place content).node? q =
      if q = place then some (.file content) else if q = temp then none else t.node? q := by
  rw [settled, node?_put, node?_erase, node?_put]
  simp only [if_neg hq]
  by_cases htemp : q = temp
  · simp only [if_pos htemp]
  · simp only [if_neg htemp]

theorem settled_settled (t : FileTree) (temp place : List String) (content : Bytes) :
    settled (settled t temp place content) temp place content = settled t temp place content := by
  have hnodes : (settled (settled t temp place content) temp place content).nodes =
      (settled t temp place content).nodes := by
    refine SortedMap.ext_get? fun q => ?_
    simp only [settled, put, erase, SortedMap.get?_insert, SortedMap.get?_erase]
    by_cases hplace : q = place
    · simp only [if_pos hplace]
    · by_cases htemp : q = temp
      · simp only [if_neg hplace, if_pos htemp]
      · simp only [if_neg hplace, if_neg htemp]
  show FileTree.mk _ _ = FileTree.mk _ _
  exact congrArg (FileTree.mk · t.workingPlace) hnodes

/-- A path may be written after a file was put elsewhere or removed. -/
theorem writable?_of_keepsDirectories {place : List String} (hkeeps : t.KeepsDirectories t')
    (hw : t.writable? p = some place) (hdir : t'.node? place ≠ some .directory) :
    t'.writable? p = some place :=
  writable?_eq_some_iff.2
    ⟨resolve?_of_keepsDirectories hkeeps (writable?_eq_some_iff.1 hw).1, hdir⟩

theorem ne_nil_of_writable? {place : List String} (h : t.writable? p = some place) :
    place ≠ [] := by
  rintro rfl
  exact (writable?_eq_some_iff.1 h).2 t.node?_nil

/-- The trees on the way of a replacement keep all directories and stay sound. -/
theorem keeps_settled {temp place : List String}
    (htemp : t.writable? (temporary p) = some temp)
    (hplace : (t.put temp (.file content)).writable? p = some place) :
    t.KeepsDirectories (settled t temp place content) ∧
      (t.put temp (.file content)).KeepsDirectories (settled t temp place content) ∧
      (t.Sound → (settled t temp place content).Sound) := by
  have hfile : (t.put temp (.file content)).node? temp ≠ some .directory := by
    rw [node?_put, if_neg (ne_nil_of_writable? htemp), if_pos rfl]
    simp
  have hkeeps := keepsDirectories_put content (writable?_eq_some_iff.1 htemp).2
  have herase := keepsDirectories_erase hfile
  have hplace' : ((t.put temp (.file content)).erase temp).writable? p = some place := by
    refine writable?_of_keepsDirectories herase hplace ?_
    rw [node?_erase, if_neg (ne_nil_of_writable? hplace)]
    split
    · simp
    · exact (writable?_eq_some_iff.1 hplace).2
  have hput := keepsDirectories_put content (writable?_eq_some_iff.1 hplace').2
  exact ⟨hkeeps.trans (herase.trans hput), herase.trans hput,
    fun ht => ((ht.put_writable htemp).erase hfile).put_writable hplace'⟩

theorem replaced_of_performAll (h : performAll t (ofContent p (Utf8.encode text)) = (t', none)) :
    Replaced t t' p text := by
  have hreads : t'.readText? p = some text := by
    rw [readText?, read?_performAll_ofContent h, Option.bind_some, Utf8.decode?_encode]
  obtain ⟨t₁, place, temp, hdirs, htemp, hplace, rfl⟩ := performAll_ofContent h
  obtain ⟨hadds, hsound, -⟩ := performAll_directorySteps hdirs
  obtain ⟨hkeeps, hkeeps', hsettled⟩ := keeps_settled htemp hplace
  have hresolve := resolve?_of_keepsDirectories hkeeps' (writable?_eq_some_iff.1 hplace).1
  have hresolve' := resolve?_of_keepsDirectories hkeeps (writable?_eq_some_iff.1 htemp).1
  have hne : ∀ (t : FileTree) q c, t.node? q = some (.file c) → q ≠ [] := by
    rintro t _ c hq rfl
    cases hq
  refine ⟨hadds.keepsDirectories.trans hkeeps, fun ht => hsettled (hsound ht), hreads,
    fun q c hq => ?_, fun q c hq hp htmp => ?_⟩
  · rw [node?_settled (hne _ q c hq)] at hq
    split at hq
    · next heq => exact .inr (heq ▸ hresolve)
    · split at hq
      · cases hq
      · exact .inl (hadds.file_iff.1 hq)
  · have hqplace : q ≠ place := by
      rintro rfl
      exact hp hresolve
    have hqtemp : q ≠ temp := by
      rintro rfl
      exact htmp hresolve'
    rw [node?_settled (hne _ q c hq), if_neg hqplace, if_neg hqtemp]
    exact hadds.file_iff.2 hq

/-- A file that holds the text already counts as replaced. -/
theorem replaced_of_ofChange (h : performAll t (ofChange t p text) = (t', none)) :
    Replaced t t' p text := by
  rw [ofChange] at h
  split at h
  · next hread =>
    obtain ⟨rfl, -⟩ := Prod.mk.inj h
    exact .refl hread
  · exact replaced_of_performAll h

/-- The same replacement again changes nothing. -/
theorem performAll_ofContent_again (h : performAll t (ofContent p content) = (t', none)) :
    performAll t' (ofContent p content) = (t', none) := by
  obtain ⟨t₁, place, temp, hdirs, htemp, hplace, rfl⟩ := performAll_ofContent h
  obtain ⟨-, -, hagain⟩ := performAll_directorySteps hdirs
  obtain ⟨hkeeps, hkeeps', -⟩ := keeps_settled htemp hplace
  generalize ht' : settled t₁ temp place content = t' at *
  have htemp' : t'.writable? (temporary p) = some temp := by
    refine writable?_of_keepsDirectories hkeeps htemp ?_
    rw [← ht', node?_settled (ne_nil_of_writable? htemp)]
    split <;> simp
  have hput := keepsDirectories_put content (writable?_eq_some_iff.1 htemp').2
  have hplace' : (t'.put temp (.file content)).writable? p = some place := by
    refine writable?_of_keepsDirectories (hkeeps'.trans hput) hplace ?_
    rw [node?_put, if_neg (ne_nil_of_writable? hplace), ← ht',
      node?_settled (ne_nil_of_writable? hplace)]
    split <;> simp
  have hwrite : (writeTemporary (temporary p) content).perform t' =
      (t'.put temp (.file content), true) := by
    rw [perform, htemp']
  have hreplace : (replace (temporary p) p).perform (t'.put temp (.file content)) =
      (t', true) := by
    have hr := resolve?_of_keepsDirectories hput (writable?_eq_some_iff.1 htemp').1
    rw [perform, hr, read?_put htemp', hplace']
    show (settled t' temp place content, true) = (t', true)
    rw [← ht', settled_settled]
  rw [ofContent_eq, performAll_append_of_eq (hagain _ hkeeps), performAll, hwrite]
  simp only
  rw [performAll, hreplace]
  rfl

end FileStep

end FlashStrings
