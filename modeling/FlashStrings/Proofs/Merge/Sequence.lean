import FlashStrings.Proofs.Merge.Apply

/-!
# Records one after the other

`Database.applyAll` takes the records that are not rejected.  The entries count
the records that were taken, and without a conflict these are all records
(`Database.Counts.applyAll`).  Nothing but the entries and the members of the list
for automatic initialisation changes.
-/

namespace FlashStrings

namespace Database

/-! ## The next record -/

/-- Take one record, or note its conflicts. -/
def takeRecord (state : Database × List Conflict) (r : Record) : Database × List Conflict :=
  match state.1.apply r with
  | .ok db => (db, state.2)
  | .error new => (state.1, state.2 ++ new)

theorem foldl_takeRecord (db : Database) (conflicts : List Conflict) (rs : List Record) :
    rs.foldl takeRecord (db, conflicts) =
      ((db.applyAll rs).1, conflicts ++ (db.applyAll rs).2) := by
  have happly : ∀ (db : Database) rs, db.applyAll rs = rs.foldl takeRecord (db, []) :=
    fun _ _ => rfl
  simp only [happly]
  induction rs generalizing db conflicts with
  | nil => simp
  | cons r rs ih =>
    rw [List.foldl_cons, List.foldl_cons]
    cases hr : db.apply r with
    | ok db' => simpa [takeRecord, hr] using ih db' conflicts
    | error new =>
      simp only [takeRecord, hr]
      rw [ih, ih db ([] ++ new), List.nil_append, List.append_assoc]

theorem applyAll_cons_of_ok {db db' : Database} {r : Record} (h : db.apply r = .ok db')
    (rs : List Record) : db.applyAll (r :: rs) = db'.applyAll rs := by
  have hstep : takeRecord (db, []) r = (db', []) := by simp [takeRecord, h]
  show rs.foldl takeRecord (takeRecord (db, []) r) = _
  rw [hstep]
  rfl

theorem applyAll_cons_of_error {db : Database} {r : Record} {new : List Conflict}
    (h : db.apply r = .error new) (rs : List Record) :
    db.applyAll (r :: rs) = ((db.applyAll rs).1, new ++ (db.applyAll rs).2) := by
  have hstep : takeRecord (db, []) r = (db, new) := by simp [takeRecord, h]
  show rs.foldl takeRecord (takeRecord (db, []) r) = _
  rw [hstep, foldl_takeRecord]

theorem applyAll_append (db : Database) (rs rs' : List Record) :
    db.applyAll (rs ++ rs') = (((db.applyAll rs).1.applyAll rs').1,
      (db.applyAll rs).2 ++ ((db.applyAll rs).1.applyAll rs').2) := by
  rw [← foldl_takeRecord]
  exact List.foldl_append

/-- What holds of a database and is kept by every record that is taken holds
after all records. -/
theorem applyAll_induction {P : Database → Prop} {db : Database} {rs : List Record} (h : P db)
    (step : ∀ r ∈ rs, ∀ db db', P db → db.apply r = .ok db' → P db') :
    P (db.applyAll rs).1 := by
  induction rs generalizing db with
  | nil => exact h
  | cons r rs ih =>
    have hstep := fun x hx => step x (List.mem_cons_of_mem _ hx)
    cases hr : db.apply r with
    | ok db' =>
      rw [applyAll_cons_of_ok hr]
      exact ih (step r List.mem_cons_self db db' h hr) hstep
    | error new =>
      rw [applyAll_cons_of_error hr]
      exact ih h hstep

/-- What holds of the conflicts of every record that is rejected holds of all conflicts. -/
theorem forall_conflicts_applyAll {P : Database → Prop} {Q : Conflict → Prop} {db : Database}
    {rs : List Record} (h : P db)
    (step : ∀ r ∈ rs, ∀ db db', P db → db.apply r = .ok db' → P db')
    (reject : ∀ r ∈ rs, ∀ db new, P db → db.apply r = .error new → ∀ c ∈ new, Q c) :
    ∀ c ∈ (db.applyAll rs).2, Q c := by
  induction rs generalizing db with
  | nil => exact List.forall_mem_nil _
  | cons r rs ih =>
    have hstep := fun x hx => step x (List.mem_cons_of_mem _ hx)
    have hreject := fun x hx => reject x (List.mem_cons_of_mem _ hx)
    cases hr : db.apply r with
    | ok db' =>
      rw [applyAll_cons_of_ok hr]
      exact ih (step r List.mem_cons_self db db' h hr) hstep hreject
    | error new =>
      rw [applyAll_cons_of_error hr]
      exact List.forall_mem_append.2 ⟨reject r List.mem_cons_self db new h hr, ih h hstep hreject⟩

/-! ## What records leave as it is -/

theorem apply_eq_ok {db db' : Database} {r : Record} (h : db.apply r = .ok db') :
    ∃ entries autoInit, db' = { db with entries, autoInit } := by
  rw [apply] at h
  split at h
  · obtain ⟨members, -, rfl⟩ := map_eq_ok h
    exact ⟨db.entries, members, rfl⟩
  · obtain ⟨entries, -, rfl⟩ := map_eq_ok h
    exact ⟨entries, db.autoInit, rfl⟩
  · obtain ⟨entries, -, rfl⟩ := map_eq_ok h
    exact ⟨entries, db.autoInit, rfl⟩

theorem files_applyAll (db : Database) (rs : List Record) :
    (db.applyAll rs).1.files = db.files := by
  refine applyAll_induction (P := fun d => d.files = db.files) rfl ?_
  intro r _ d d' hd hr
  obtain ⟨entries, autoInit, rfl⟩ := apply_eq_ok hr
  exact hd

theorem fingerprint_applyAll (db : Database) (rs : List Record) :
    (db.applyAll rs).1.fingerprint = db.fingerprint := by
  refine applyAll_induction (P := fun d => d.fingerprint = db.fingerprint) rfl ?_
  intro r _ d d' hd hr
  obtain ⟨entries, autoInit, rfl⟩ := apply_eq_ok hr
  exact hd

/-- The records of files change nothing about the records that are taken. -/
theorem apply_withFiles (db : Database) (files : TextMap FileRecords) (r : Record) :
    apply { db with files } r = (db.apply r).map ({ · with files }) := by
  have hmap : ∀ (x : Except (List Conflict) (List Entry)) (f : List Entry → Database),
      x.map (fun es => { f es with files }) = (x.map f).map ({ · with files }) :=
    fun x f => by cases x <;> rfl
  cases hk : r.kind <;> simp only [apply, hk, upsert, upsertMember, ← hmap]

theorem applyAll_withFiles (db : Database) (files : TextMap FileRecords) (rs : List Record) :
    applyAll { db with files } rs =
      ({ (db.applyAll rs).1 with files }, (db.applyAll rs).2) := by
  induction rs generalizing db with
  | nil => rfl
  | cons r rs ih =>
    have hfiles := apply_withFiles db files r
    cases ha : db.apply r with
    | ok db' =>
      rw [ha] at hfiles
      rw [applyAll_cons_of_ok hfiles, applyAll_cons_of_ok ha, ih]
    | error new =>
      rw [ha] at hfiles
      rw [applyAll_cons_of_error hfiles, applyAll_cons_of_error ha, ih]

/-! ## What was taken -/

theorem conflicts_ne_nil_of_apply {db : Database} {r : Record} {new : List Conflict}
    (h : db.apply r = .error new) : new ≠ [] := by
  by_cases hk : r.kind = .autoInit
  · rw [apply, hk] at h
    obtain ⟨e, -, he⟩ := mergeOrAppend_eq_error (map_eq_error h)
    obtain ⟨x, rfl, -⟩ := Entry.mergeMember_eq_error he
    exact List.cons_ne_nil x []
  · obtain ⟨e, -, he⟩ := merge_of_apply_eq_error hk h
    exact (Entry.merge_eq_error he).2

/-- The records that are taken are counted; without a conflict these are all. -/
theorem Counts.applyAll {db : Database} {taken : List Record} (h : db.Counts taken)
    (rs : List Record) : ∃ more, more.Sublist rs ∧ (db.applyAll rs).1.Counts (taken ++ more) ∧
      ((db.applyAll rs).2 = [] → more = rs) := by
  induction rs generalizing db taken with
  | nil => exact ⟨[], .refl [], by rwa [List.append_nil], fun _ => rfl⟩
  | cons r rs ih =>
    cases hr : db.apply r with
    | ok db' =>
      obtain ⟨more, hsub, hcounts, hall⟩ := ih (h.apply hr)
      rw [applyAll_cons_of_ok hr]
      refine ⟨r :: more, hsub.cons_cons r, by simpa using hcounts, fun hnone => ?_⟩
      rw [hall hnone]
    | error new =>
      obtain ⟨more, hsub, hcounts, -⟩ := ih h
      rw [applyAll_cons_of_error hr]
      refine ⟨more, hsub.cons r, hcounts, fun hnone => ?_⟩
      exact absurd (List.append_eq_nil_iff.1 hnone).1 (conflicts_ne_nil_of_apply hr)

end Database

end FlashStrings
