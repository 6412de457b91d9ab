import FlashStrings.Proofs.FileTree.Replace

/-!
# Interrupted replacements

A replacement may be interrupted after any of its steps (`FileStep.StopsAt`).  Up
to the last step the tree differs from the one before at the temporary file alone,
apart from new directories (`FileTree.Touches`), and a straight path to any other
file finds what it found (`FileTree.Touches.read?_eq`).  The same replacement leads
from there to the tree that it would have led to at once
(`FileStep.resumes_ofContent`, `FileStep.resumes_ofChange`).
-/

namespace FlashStrings

namespace FileTree

variable {t t' t'' : FileTree} {p : Path} {place : List String} {content : Bytes}
  {places more : List (List String)}

/-! ## Changes at some places -/

/-- Nothing changed but at some places, and that some directories were made. -/
structure Touches (t t' : FileTree) (places : List (List String)) : Prop where
  /-- All directories are kept. -/
  keeps : t.KeepsDirectories t'
  /-- The tree stays sound. -/
  sound : t.Sound → t'.Sound
  /-- What is new elsewhere is a directory. -/
  node? : ∀ q, q ∉ places → t'.node? q = t.node? q ∨
    t.node? q = none ∧ t'.node? q = some .directory

namespace Touches

theorem refl (t : FileTree) (places : List (List String)) : t.Touches t places :=
  ⟨.refl t, id, fun _ _ => .inl rfl⟩

theorem trans (h : t.Touches t' places) (h' : t'.Touches t'' more) :
    t.Touches t'' (places ++ more) := by
  refine ⟨h.keeps.trans h'.keeps, h'.sound ∘ h.sound, fun q hq => ?_⟩
  obtain ⟨hplaces, hmore⟩ := not_or.1 (mt List.mem_append.2 hq)
  rcases h.node? q hplaces with heq | ⟨hnone, hdir⟩
  · rw [← heq]
    exact h'.node? q hmore
  · exact .inr ⟨hnone, h'.keeps.2 q hdir⟩

theorem mono (h : t.Touches t' places) (hsub : places ⊆ more) : t.Touches t' more :=
  ⟨h.keeps, h.sound, fun q hq => h.node? q fun hmem => hq (hsub hmem)⟩

/-- A straight path to another place finds what it found, unless it now leads to a
directory. -/
theorem find?_eq (h : t.Touches t' places) (ht : t.Sound) (hp : p.Straight)
    (hplace : p.names ∉ places) (hfile : t'.node? p.names ≠ some .directory) :
    t'.find? p = t.find? p := by
  rcases h.node? _ hplace with heq | ⟨-, hdir⟩
  · exact find?_congr (h.sound ht) ht hp heq
  · exact absurd hdir hfile

/-- The files elsewhere are the same. -/
theorem file_iff (h : t.Touches t' places) (hplace : place ∉ places) {content : Bytes} :
    t'.node? place = some (.file content) ↔ t.node? place = some (.file content) := by
  rcases h.node? _ hplace with heq | ⟨hnone, hdir⟩
  · rw [heq]
  · simp [hnone, hdir]

/-- A straight path to another place reads what it read. -/
theorem read?_eq (h : t.Touches t' places) (ht : t.Sound) (hp : p.Straight)
    (hplace : p.names ∉ places) : t'.read? p = t.read? p := by
  rcases h.node? _ hplace with heq | ⟨hnone, hdir⟩
  · rw [read?, read?, find?_congr (h.sound ht) ht hp heq]
  · have hread : ∀ u : FileTree, (∀ content, u.node? p.names ≠ some (.file content)) →
        u.read? p = none := by
      intro u hu
      refine Option.eq_none_iff_forall_ne_some.2 fun content hcontent => ?_
      obtain ⟨q, hq, hnode⟩ := read?_eq_some_iff.1 hcontent
      exact hu content (resolve?_eq_some hp hq ▸ hnode)
    rw [hread t fun _ => by simp [hnone], hread t' fun _ => by simp [hdir]]

end Touches

theorem AddsDirectories.touches (h : t.AddsDirectories t') (hsound : t.Sound → t'.Sound)
    (places : List (List String)) : t.Touches t' places :=
  ⟨h.keepsDirectories, hsound, fun q _ => h.node? q⟩

theorem touches_put (h : t.writable? p = some place) :
    t.Touches (t.put place (.file content)) [place] := by
  refine ⟨keepsDirectories_put content (writable?_eq_some_iff.1 h).2,
    fun ht => ht.put_writable h, fun q hq => .inl ?_⟩
  rw [node?_put, if_neg (mt List.mem_singleton.2 hq)]
  split
  · next hnil => rw [hnil, node?_nil]
  · rfl

theorem put_put (t : FileTree) (place : List String) (node : Node) :
    (t.put place node).put place node = t.put place node := by
  have hnodes : ((t.put place node).put place node).nodes = (t.put place node).nodes := by
    refine SortedMap.ext_get? fun q => ?_
    simp only [put, SortedMap.get?_insert]
    split <;> rfl
  show FileTree.mk _ _ = FileTree.mk _ _
  exact congrArg (FileTree.mk · t.workingPlace) hnodes

end FileTree

namespace FileStep

open FileTree

variable {t t' u : FileTree} {p : Path} {content : Bytes} {text : String}
  {s : FileStep} {steps more : List FileStep}

/-! ## Where steps can stop -/

/-- The tree after the first ones of some steps, none of which failed. -/
def StopsAt (t : FileTree) (steps : List FileStep) (u : FileTree) : Prop :=
  ∃ n, performAll t (steps.take n) = (u, none)

namespace StopsAt

theorem start (t : FileTree) (steps : List FileStep) : StopsAt t steps t := ⟨0, rfl⟩

theorem nil (h : StopsAt t [] u) : u = t := by
  obtain ⟨n, h⟩ := h
  rw [List.take_nil] at h
  exact (Prod.mk.inj h).1.symm

theorem cons (h : StopsAt t (s :: steps) u) :
    u = t ∨ ∃ t₁, s.perform t = (t₁, true) ∧ StopsAt t₁ steps u := by
  obtain ⟨n, h⟩ := h
  cases n with
  | zero => exact .inl (Prod.mk.inj h).1.symm
  | succ n =>
    obtain ⟨t₁, hs, h⟩ := performAll_cons h
    exact .inr ⟨t₁, hs, n, h⟩

theorem append (h : StopsAt t (steps ++ more) u) :
    StopsAt t steps u ∨ ∃ t₁, performAll t steps = (t₁, none) ∧ StopsAt t₁ more u := by
  induction steps generalizing t with
  | nil => exact .inr ⟨t, rfl, h⟩
  | cons s steps ih =>
    rcases h.cons with rfl | ⟨t₁, hs, h⟩
    · exact .inl (start ..)
    · rcases ih h with ⟨n, h⟩ | ⟨t₂, hsteps, h⟩
      · refine .inl ⟨n + 1, ?_⟩
        rw [List.take_succ_cons, performAll, hs]
        exact h
      · refine .inr ⟨t₂, ?_, h⟩
        rw [performAll, hs]
        exact hsteps

/-- The directories above a path are made in one step. -/
theorem directorySteps (h : StopsAt t (directorySteps p) u) :
    u = t ∨ performAll t (FileStep.directorySteps p) = (u, none) := by
  rcases directorySteps_eq p with hnil | ⟨above, habove⟩
  · rw [hnil] at h
    exact .inl h.nil
  · rw [habove] at h ⊢
    rcases h.cons with rfl | ⟨t₁, hs, h⟩
    · exact .inl rfl
    · refine .inr ?_
      rw [performAll, hs, h.nil]
      rfl

end StopsAt

/-! ## Replacements -/

theorem straight_temporary (hp : p.Straight) : (temporary p).Straight := by
  refine hp.withFileName ?_
  have htext : ∀ text : String, '/' ∉ text.toList → ".." ∉ Path.parts ⟨text ++ ".tmp"⟩ := by
    intro text hslash hup
    rw [Path.parts_of_noSlash (by simpa using hslash), List.mem_singleton] at hup
    have hlast := congrArg (·.toList.getLast?) hup
    simp at hlast
  cases hname : p.fileName? with
  | none => exact htext "" (by decide)
  | some name =>
    rw [hp.fileName?_eq] at hname
    exact htext name (hp.isName_of_mem_names (List.mem_of_getLast? hname)).noSlash

/-- A replacement touches the file and its temporary file. -/
theorem touches_ofContent (hp : p.Straight)
    (h : performAll t (ofContent p content) = (t', none)) :
    t.Touches t' [p.names, (temporary p).names] := by
  obtain ⟨t₁, place, temp, hdirs, htemp, hplace, rfl⟩ := performAll_ofContent h
  obtain ⟨hadds, hsound, -⟩ := performAll_directorySteps hdirs
  obtain ⟨hkeeps, -, hsettled⟩ := keeps_settled htemp hplace
  obtain rfl := resolve?_eq_some (straight_temporary hp) (writable?_eq_some_iff.1 htemp).1
  obtain rfl := resolve?_eq_some hp (writable?_eq_some_iff.1 hplace).1
  refine ⟨hadds.keepsDirectories.trans hkeeps, hsettled ∘ hsound, fun q hq => ?_⟩
  by_cases hnil : q = []
  · rw [hnil]
    exact .inl rfl
  · obtain ⟨hqplace, hqtemp⟩ : q ≠ p.names ∧ q ≠ (temporary p).names := by simpa using hq
    rw [node?_settled hnil, if_neg hqplace, if_neg hqtemp]
    exact hadds.node? q

theorem touches_ofChange (hp : p.Straight)
    (h : performAll t (ofChange t p text) = (t', none)) :
    t.Touches t' [p.names, (temporary p).names] := by
  rw [ofChange] at h
  split at h
  · obtain ⟨rfl, -⟩ := Prod.mk.inj h
    exact .refl ..
  · exact touches_ofContent hp h

/-- A replacement that was interrupted is done again with the same result. -/
theorem resumes_ofContent (hp : p.Straight)
    (h : performAll t (ofContent p content) = (t', none))
    (hstop : StopsAt t (ofContent p content) u) :
    performAll u (ofContent p content) = (t', none) ∧
      (t.Touches u [(temporary p).names] ∨ u = t') := by
  obtain ⟨t₁, place, temp, hdirs, htemp, -, -⟩ := performAll_ofContent h
  obtain ⟨hadds, hsound, hagain⟩ := performAll_directorySteps hdirs
  obtain rfl := resolve?_eq_some (straight_temporary hp) (writable?_eq_some_iff.1 htemp).1
  have hmade := hadds.touches hsound [(temporary p).names]
  have hwritten : t₁.Touches (t₁.put (temporary p).names (.file content))
      [(temporary p).names] := touches_put htemp
  have hrest : performAll t₁ [writeTemporary (temporary p) content, replace (temporary p) p] =
      (t', none) := by
    rw [ofContent_eq, performAll_append_of_eq hdirs] at h
    exact h
  -- where the directories are there, what is left to do leads to the result
  have hredo : ∀ v, t₁.KeepsDirectories v →
      performAll v [writeTemporary (temporary p) content, replace (temporary p) p] =
        (t', none) → performAll v (ofContent p content) = (t', none) := by
    intro v hkeeps hv
    rw [ofContent_eq, performAll_append_of_eq (hagain v hkeeps), hv]
  rw [ofContent_eq] at hstop
  rcases hstop.append with hstop | ⟨_, hdirs', hstop⟩
  · rcases hstop.directorySteps with rfl | hdone
    · exact ⟨h, .inl (.refl ..)⟩
    · obtain ⟨rfl, -⟩ := Prod.mk.inj (hdirs.symm.trans hdone)
      exact ⟨hredo _ (.refl _) hrest, .inl hmade⟩
  · obtain ⟨rfl, -⟩ := Prod.mk.inj (hdirs.symm.trans hdirs')
    rcases hstop.cons with rfl | ⟨t₂, hwrite, hstop⟩
    · exact ⟨hredo _ (.refl _) hrest, .inl hmade⟩
    · obtain rfl : t₁.put (temporary p).names (.file content) = t₂ := by
        rw [perform, htemp] at hwrite
        exact (Prod.mk.inj hwrite).1
      rcases hstop.cons with rfl | ⟨t₃, hreplace, hstop⟩
      · refine ⟨hredo _ hwritten.keeps ?_, .inl (hmade.trans hwritten |>.mono (by simp))⟩
        -- the temporary file is written over with the same content
        have hplace : (t₁.put (temporary p).names (.file content)).writable? (temporary p) =
            some (temporary p).names := by
          refine writable?_of_keepsDirectories hwritten.keeps htemp ?_
          rw [node?_put, if_neg (ne_nil_of_writable? htemp), if_pos rfl]
          simp
        have hwrite' : (writeTemporary (temporary p) content).perform
            (t₁.put (temporary p).names (.file content)) =
              (t₁.put (temporary p).names (.file content), true) := by
          rw [perform, hplace]
          exact congrArg (·, true) (put_put ..)
        rw [performAll, hwrite] at hrest
        rw [performAll, hwrite', hrest]
      · obtain rfl := hstop.nil
        rw [performAll, hwrite] at hrest
        simp only at hrest
        rw [performAll, hreplace] at hrest
        obtain ⟨rfl, -⟩ := Prod.mk.inj hrest
        exact ⟨performAll_ofContent_again h, .inr rfl⟩

/-- This holds also if a file may hold the text already. -/
theorem resumes_ofChange (hp : p.Straight) (hne : p.names ≠ (temporary p).names) (ht : t.Sound)
    (h : performAll t (ofChange t p text) = (t', none))
    (hstop : StopsAt t (ofChange t p text) u) :
    performAll u (ofChange u p text) = (t', none) ∧
      (t.Touches u [(temporary p).names] ∨ u = t') := by
  by_cases hread : t.readText? p = some text
  · have hnil : ofChange t p text = [] := if_pos hread
    rw [hnil] at hstop
    obtain rfl := hstop.nil
    exact ⟨h, .inl (.refl ..)⟩
  · have hsteps : ofChange t p text = ofContent p (Utf8.encode text) := if_neg hread
    rw [hsteps] at h hstop
    obtain ⟨hredo, hplace⟩ := resumes_ofContent hp h hstop
    refine ⟨?_, hplace⟩
    rw [ofChange]
    split
    · next hnew =>
      rcases hplace with htouches | rfl
      · rw [readText?, htouches.read?_eq ht hp (by simpa using hne)] at hnew
        exact absurd hnew hread
      · rfl
    · exact hredo

end FileStep

end FlashStrings
