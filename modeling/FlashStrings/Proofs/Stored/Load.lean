import FlashStrings.Proofs.FileTree
import FlashStrings.Proofs.Stored.Database
import FlashStrings.Proofs.Text.Utf8
import FlashStrings.Stored.Load

/-!
# Loading what was saved

A file that holds the text of a database is loaded as that database, or refused
when a number does not fit (`Database.load_of_read?`).  No other database is ever
loaded from it.
-/

namespace FlashStrings

namespace Database

variable {t t' : FileTree} {path : Path} {db db' : Database}

theorem load_of_has (h : t.has path = false) : load t path = .ok {} := by
  rw [load, h]
  rfl

theorem load_of_read?_eq_none (h : t.read? path = none) (hload : load t path = .ok db) :
    db = {} := by
  rw [load, FileTree.readText?, h] at hload
  split at hload
  · cases hload
  · exact (Except.ok.inj hload).symm

/-- A file with the text of a database gives that database if its numbers fit. -/
theorem load_of_read? (h : t.read? path = some (Utf8.encode db.toText)) :
    load t path = if db.fits then .ok db else .error (.malformedDatabase path) := by
  obtain ⟨place, hresolve, hnode⟩ := FileTree.read?_eq_some_iff.1 h
  have hhas : t.has path = true := by simp [FileTree.has, FileTree.find?, hresolve, hnode]
  rw [load, if_pos hhas, FileTree.readText?, h, Option.bind_some, Utf8.decode?_encode]
  simp only [ofText?_toText]
  cases db.fits <;> rfl

/-- A saved database is loaded as it was saved. -/
theorem load_of_read?_eq_some (h : t.read? path = some (Utf8.encode db.toText))
    (hload : load t path = .ok db') : db' = db := by
  rw [load_of_read? h] at hload
  split at hload
  · exact (Except.ok.inj hload).symm
  · cases hload

/-- After its steps of saving a database is read at its path. -/
theorem load_of_saved
    (h : FileStep.performAll t (FileStep.ofContent path (Utf8.encode db.toText)) = (t', none)) :
    load t' path = if db.fits then .ok db else .error (.malformedDatabase path) :=
  load_of_read? (FileStep.read?_performAll_ofContent h)

end Database

end FlashStrings
