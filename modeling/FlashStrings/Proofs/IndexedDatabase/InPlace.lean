import FlashStrings.InPlace
import FlashStrings.Proofs.Merge.Shortcut

/-!
# Merging in place is merging

A merge in place compares all keys before it changes the entry, and finds the
conflicts of the entry and the candidate (`Entry.conflicts_compareKeys`).  Without
a conflict it puts in the texts that the entry adopts (`Entry.putNew_compareKeys`).
So it ends as the merge does, and a rejected candidate leaves the entry as it was
(`Entry.run_mergeInPlace`).  The same holds of a record and a database
(`IndexedDatabase.applyInPlace_eq`).
-/

namespace FlashStrings

/-- How a change in place ends that gives this answer: with what it leads to, or with
what was there before. -/
def endOf {ε σ : Type} (before : σ) : Except ε σ → EStateM.Result ε σ Unit
  | .ok after => .ok () after
  | .error new => .error new before

namespace Entry

variable {e : Entry} {c : Candidate}

/-! ## Comparing -/

/-- The conflict under one key of the candidate, if there is one. -/
def conflictAt? (e : Entry) (c : Candidate) (locale : Option String) (text : String) :
    Option Conflict := do
  let existing ← e.at? locale
  if existing.text = text then none else some (e.conflictAt c locale existing text)

theorem conflicts_eq (e : Entry) (c : Candidate) :
    e.conflicts c = (c.value.fallback.bind (e.conflictAt? c none)).toList ++
      c.value.locales.entries.filterMap fun (code, text) => e.conflictAt? c (some code) text := by
  have hconflicts : e.conflicts c = c.value.texts.filterMap fun x => e.conflictAt? c x.1 x.2 := rfl
  rw [hconflicts, Value.texts, List.filterMap_append, List.filterMap_map, List.filterMap_map]
  congr 1
  cases c.value.fallback with
  | none => rfl
  | some text =>
    show [text].filterMap (e.conflictAt? c none) = (e.conflictAt? c none text).toList
    cases hconflict : e.conflictAt? c none text <;> simp [hconflict]

theorem foldl_compareLocale (found : Comparison) (l : List (String × String)) :
    l.foldl (e.compareLocale c) found =
      { conflicts := found.conflicts ++
          l.filterMap fun (code, text) => e.conflictAt? c (some code) text
        fallbackIsNew := found.fallbackIsNew
        newLocales := found.newLocales ++ l.filter fun x => (e.locales.get? x.1).isNone } := by
  induction l generalizing found with
  | nil => simp
  | cons x l ih =>
    obtain ⟨code, text⟩ := x
    rw [List.foldl_cons, ih]
    cases hget : e.locales.get? code with
    | none => simp [compareLocale, conflictAt?, at?, hget]
    | some existing =>
      by_cases htext : existing.text = text <;>
        simp [compareLocale, conflictAt?, at?, hget, htext]

/-- The comparison finds the conflicts. -/
theorem conflicts_compareKeys (e : Entry) (c : Candidate) :
    (e.compareKeys c).conflicts = e.conflicts c := by
  have hfallback : (e.compareFallback c).conflicts =
      (c.value.fallback.bind (e.conflictAt? c none)).toList := by
    rw [compareFallback]
    cases he : e.fallback <;> cases hc : c.value.fallback
    case some.some existing text =>
      by_cases htext : existing.text = text <;> simp [conflictAt?, at?, he, htext]
    all_goals simp [conflictAt?, at?, he]
  rw [compareKeys, foldl_compareLocale, conflicts_eq, hfallback]

/-! ## Putting in -/

/-- The entry with the texts that a comparison found to be new. -/
def putNew (e : Entry) (c : Candidate) (found : Comparison) : Entry :=
  { e with
    fallback := if found.fallbackIsNew then c.value.fallback.map (⟨·, c.location⟩) else e.fallback
    locales := found.newLocales.foldl (fun m x => m.insert x.1 ⟨x.2, c.location⟩) e.locales }

theorem get?_foldl_insert (location : Location) {l : List (String × String)}
    (h : l.Pairwise fun x y => x.1 < y.1) (m : TextMap SitedText) (code : String) :
    (l.foldl (fun m x => m.insert x.1 ⟨x.2, location⟩) m).get? code =
      ((SortedMap.find? code l).map (⟨·, location⟩)).or (m.get? code) := by
  induction l generalizing m with
  | nil => rfl
  | cons x l ih =>
    obtain ⟨hx, hl⟩ := List.pairwise_cons.1 h
    rw [List.foldl_cons, ih hl, SortedMap.get?_insert, SortedMap.find?]
    by_cases hcode : code = x.1
    · subst hcode
      have hnone : SortedMap.find? x.1 l = none := by
        refine Option.eq_none_iff_forall_ne_some.2 fun text htext => ?_
        exact Std.Irrefl.irrefl x.1 (hx (x.1, text) (SortedMap.mem_of_find?_eq_some htext))
      simp [hnone]
    · simp [hcode, Ne.symm hcode]

theorem find?_filter_isNone (m : TextMap SitedText) (code : String) (l : List (String × String)) :
    SortedMap.find? code (l.filter fun x => (m.get? x.1).isNone) =
      if (m.get? code).isNone then SortedMap.find? code l else none := by
  induction l with
  | nil => simp [SortedMap.find?]
  | cons x l ih =>
    rw [List.filter_cons, SortedMap.find?]
    by_cases hcode : x.1 = code
    · subst hcode
      cases hx : (m.get? x.1).isNone
      · simpa [hx] using ih
      · simp [SortedMap.find?]
    · cases (m.get? x.1).isNone <;> simp [SortedMap.find?, hcode, ih]

/-- The texts that the comparison found to be new are those that the entry adopts. -/
theorem putNew_compareKeys (e : Entry) (c : Candidate) :
    e.putNew c (e.compareKeys c) = e.adopt c := by
  obtain ⟨fallback, locales, hadopt⟩ := e.adopt_eq c
  have hat : ∀ key, (e.adopt c).at? key = _ := e.at?_adopt c
  rw [hadopt] at hat ⊢
  rw [putNew, compareKeys, foldl_compareLocale]
  congr 1
  · refine Eq.trans ?_ (hat none).symm
    show (if (e.compareFallback c).fallbackIsNew then _ else e.fallback) =
      e.fallback.or (c.value.fallback.map _)
    rw [compareFallback]
    cases he : e.fallback <;> cases hc : c.value.fallback
    case some.some existing text => by_cases htext : existing.text = text <;> simp [htext]
    all_goals simp
  · refine SortedMap.ext_get? fun code => Eq.trans ?_ (hat (some code)).symm
    have hnew : (e.compareFallback c).newLocales = [] := by
      rw [compareFallback]
      split
      · split <;> rfl
      · rfl
      · rfl
    have hsorted := c.value.locales.sorted.filter fun x => (e.locales.get? x.1).isNone
    rw [hnew, List.nil_append, get?_foldl_insert c.location hsorted, find?_filter_isNone]
    show _ = (e.locales.get? code).or ((SortedMap.find? code c.value.locales.entries).map _)
    cases e.locales.get? code <;> simp

/-! ## Merging -/

theorem run_bind_of_ok {ε σ α β : Type} {x : EStateM ε σ α} {f : α → EStateM ε σ β} {s s' : σ}
    {a : α} (h : x.run s = .ok a s') : (x >>= f).run s = (f a).run s' := by
  rw [EStateM.run] at h
  show EStateM.bind x f s = f a s'
  rw [EStateM.bind, h]

theorem run_forM_modify (location : Location) (l : List (String × String)) (e : Entry) :
    (l.forM fun (code, text) => (modify fun e : Entry =>
        { e with locales := e.locales.insert code ⟨text, location⟩ } :
          EStateM (List Conflict) Entry Unit)).run e =
      .ok () { e with locales := l.foldl (fun m x => m.insert x.1 ⟨x.2, location⟩) e.locales } := by
  induction l generalizing e with
  | nil => rfl
  | cons x l ih => exact ih { e with locales := e.locales.insert x.1 ⟨x.2, location⟩ }

theorem run_takeInPlace (e : Entry) (c : Candidate) (found : Comparison) :
    (takeInPlace c found).run e =
      .ok () (((e.putNew c found).refreshHash.promote c).account c) := by
  rw [takeInPlace, putNew]
  cases found.fallbackIsNew with
  | true => exact run_bind_of_ok (run_forM_modify c.location found.newLocales _)
  | false => exact run_bind_of_ok (run_forM_modify c.location found.newLocales e)

/-- A rejected candidate leaves the entry as it was. -/
theorem run_mergeInPlace (e : Entry) (c : Candidate) :
    (mergeInPlace c).run e = endOf e (e.merge c) := by
  rw [merge, ← conflicts_compareKeys, ← putNew_compareKeys]
  show (if _ then _ else _ : EStateM (List Conflict) Entry Unit).run e = _
  split
  · rfl
  · cases hconflicts : (e.compareKeys c).conflicts with
    | cons x new => rfl
    | nil => exact run_takeInPlace e c (e.compareKeys c)

/-- A rejected member leaves the entry as it was. -/
theorem run_mergeMemberInPlace (e : Entry) (c : Candidate) :
    (mergeMemberInPlace c).run e = endOf e (e.mergeMember c) := by
  rw [mergeMember]
  show (if _ then _ else _ : EStateM (List Conflict) Entry Unit).run e = _
  split <;> rfl

end Entry

/-! ## Databases -/

theorem changeAtPlace_eq {change : Candidate → EStateM (List Conflict) Entry Unit}
    {merge : Entry → Candidate → Except (List Conflict) Entry} {c : Candidate}
    (h : ∀ e, (change c).run e = endOf e (merge e c)) (identifier : String) (es : List Entry)
    (places : TextMap Nat) :
    changeAtPlace change identifier c es places =
      (mergeAtPlace merge identifier c es places).map (endOf (es, places)) := by
  rw [changeAtPlace, mergeAtPlace]
  cases places.get? identifier with
  | none => rfl
  | some i =>
    cases he : es[i]? with
    | none => simp [he]
    | some e =>
      simp only [he, Option.map_some, h]
      cases merge e c with
      | ok e' => rfl
      | error new =>
        obtain ⟨hi, rfl⟩ := List.getElem?_eq_some_iff.1 he
        simp [endOf, endOfWhole, Except.map]

theorem endOfWhole_endOf {ε σ τ : Type} (whole : σ → τ) (before : σ) (x : Except ε σ) :
    endOfWhole whole (endOf before x) = endOf (whole before) (x.map whole) := by
  cases x <;> rfl

/-- A rejected record leaves the database and its indices as they were. -/
theorem IndexedDatabase.applyInPlace_eq (db : IndexedDatabase) (r : Record) :
    db.applyInPlace r = (db.apply r).map (endOf db) := by
  cases hk : r.kind with
  | autoInit =>
    rw [applyInPlace, apply, hk]
    simp only [changeAtPlace_eq (Entry.run_mergeMemberInPlace · r.candidate), Option.map_map,
      Function.comp_def, endOfWhole_endOf]
  | definition | reference =>
    rw [applyInPlace, apply, hk]
    simp only [changeAtPlace_eq (Entry.run_mergeInPlace · r.candidate), Option.map_map,
      Function.comp_def, endOfWhole_endOf]

end FlashStrings
