import FlashStrings.Proofs.IndexedDatabase.Built
import FlashStrings.Proofs.Invocation.Contents
import FlashStrings.Proofs.Run.Pasted

/-!
# The wildcard in a database

The parser and the settings give values in normal form: the wildcard stands only beside
a fallback with another text.  Merging does not bring values into this form again, and
need not.  An entry holds what records say that agree with each other, so a wildcard
comes in together with the fallback that stands beside it, or meets the same fallback
(`Value.IsNormal.union`).  A display text is given only to an entry without a fallback,
which has no wildcard then (`Value.IsNormal.withFallback`).  Hence all entries and
members of a database are in normal form, whichever records it took and rejected
(`IndexedDatabase.isNormal_build`).
-/

namespace FlashStrings

/-! ## Entries -/

namespace Entry

variable {e e' : Entry} {c : Candidate}

theorem isNormal_create (h : c.value.IsNormal) (identifier : String) :
    (create identifier c).value.IsNormal := by
  rwa [value_create]

theorem isNormal_merge (h : e.value.IsNormal) (hc : c.value.IsNormal)
    (hm : e.merge c = .ok e') : e'.value.IsNormal := by
  rcases merge_eq_ok hm with ⟨-, rfl⟩ | ⟨hnil, rfl⟩
  · rwa [value_account, value_promote]
  · rw [value_account, value_promote, value_refreshHash]
    exact h.union hc (e.at?_value_adopt c) (conflicts_eq_nil_iff.1 hnil)

theorem isNormal_mergeMember (h : e.value.IsNormal) (hm : e.mergeMember c = .ok e') :
    e'.value.IsNormal := by
  obtain ⟨-, rfl⟩ := mergeMember_eq_ok hm
  rwa [value_account]

theorem isNormal_filled (h : e.value.IsNormal) : e.filled.value.IsNormal := by
  rcases e.filled_cases with hsame | ⟨location, hnone, -, hfilled⟩
  · rwa [hsame]
  · have hnone : e.value.fallback = none := by rw [value, hnone]; rfl
    rw [hfilled]
    exact h.withFallback hnone (displayText e.identifier)

end Entry

/-! ## Records -/

/-- The record was found in a source, or made of a text of settings, accepted or not. -/
def Record.IsStated (r : Record) : Prop :=
  (∃ settings text, r ∈ recordsOf (scan settings text)) ∨ ∃ p : Project, r ∈ p.configRecords

theorem Record.IsStated.isNormal {r : Record} (h : r.IsStated) : r.value.IsNormal := by
  rcases h with ⟨settings, text, hscan⟩ | ⟨p, hconfig⟩
  · exact (gives_of_mem_recordsOf_scan hscan).isNormal
  · obtain ⟨x, -, rfl⟩ := List.mem_map.1 hconfig
    exact Value.isNormal_normalizeWildcard _

/-! ## Databases -/

namespace IndexedDatabase

/-- Building a database of such records does not fail, and every wildcard in it stands
beside a fallback with another text.  The normal form is its own, and changes no text
that a locale gets. -/
theorem isNormal_build {steps : List BuildStep} (hstated : ∀ r, .offer r ∈ steps → r.IsStated) :
    (∃ db, build steps = some db ∧
      ∀ e ∈ db.database.entries ++ db.database.autoInit, e.value.IsNormal) ∧
      ∀ v : Value, v.normalizeWildcard.normalizeWildcard = v.normalizeWildcard ∧
        ∀ code, v.normalizeWildcard.textFor code = v.textFor code := by
  refine ⟨⟨_, build_eq steps, List.forall_mem_append.2 ⟨?_, ?_⟩⟩, fun v => ⟨?_, ?_⟩⟩
  · exact Database.forall_entries_built
      (fun r hr _ => Entry.isNormal_create (hstated r hr).isNormal r.identifier)
      (fun r hr _ _ he => Entry.isNormal_merge he (hstated r hr).isNormal)
      fun _ => Entry.isNormal_filled
  · exact Database.forall_members_built
      (fun r hr _ => Entry.isNormal_create (hstated r hr).isNormal r.identifier)
      fun _ _ _ _ => Entry.isNormal_mergeMember
  · exact v.isNormal_normalizeWildcard.normalizeWildcard_eq
  · exact v.textFor_normalizeWildcard

/-! ### A wildcard that comes later -/

/-- A source whose second use gives a text to the wildcard, and whose third is rejected. -/
def wildcardSource : String :=
  "SPGM(title, *: \"Title\"); SPGM(title, \"Title\", *: \"Any\"); SPGM(title, \"Other\")"

/-- The records of the source one after the other, with display texts before and after. -/
def wildcardSteps : List BuildStep :=
  .fillAutoValues :: (recordsOf (scan ⟨"a.c", ∅⟩ wildcardSource)).map .offer ++ [.fillAutoValues]

theorem isNormal_build_wildcardSteps :
    ∃ db, build wildcardSteps = some db ∧
      (∀ e ∈ db.database.entries ++ db.database.autoInit, e.value.IsNormal) ∧
      db.database.entries.map (·.value) =
        [{ fallback := some "Title", locales := .ofList [("*", "Any")] }] := by
  have hstated : ∀ r, .offer r ∈ wildcardSteps → r.IsStated := by
    intro r hr
    simp only [wildcardSteps, List.cons_append, List.mem_cons, List.mem_append, List.mem_map,
      List.not_mem_nil, or_false, false_or, reduceCtorEq, BuildStep.offer.injEq,
      exists_eq_right] at hr
    exact .inl ⟨_, _, hr⟩
  obtain ⟨⟨db, hbuild, hnormal⟩, -⟩ := isNormal_build hstated
  refine ⟨db, hbuild, hnormal, ?_⟩
  obtain rfl := Option.some.inj ((build_eq wildcardSteps).symm.trans hbuild)
  decide +kernel

end IndexedDatabase

end FlashStrings
