import FlashStrings.Project
import FlashStrings.Proofs.Config.Define
import FlashStrings.Proofs.Text.Marked

/-!
# The fingerprint of a project

The text that the fingerprint of a project is made of names the string defines
line by line.  A name has no equals sign and a text no newline, so two projects
with the same text have the same string defines (`Project.defines_eq_of_scanText_eq`).
-/

namespace FlashStrings

/-- The line of a string define. -/
def defineLine (e : String × String) : List Char := e.1.toList ++ '=' :: (e.2.toList ++ ['\n'])

theorem flatMap_defineLine_inj {l l' : List (String × String)}
    (hl : ∀ e ∈ l, '=' ∉ e.1.toList ∧ '\n' ∉ e.2.toList)
    (hl' : ∀ e ∈ l', '=' ∉ e.1.toList ∧ '\n' ∉ e.2.toList)
    (h : l.flatMap defineLine = l'.flatMap defineLine) : l = l' := by
  induction l generalizing l' with
  | nil =>
    cases l' with
    | nil => rfl
    | cons e l' => simp [defineLine] at h
  | cons e l ih =>
    cases l' with
    | nil => simp [defineLine] at h
    | cons e' l' =>
      obtain ⟨name, text⟩ := e
      obtain ⟨name', text'⟩ := e'
      obtain ⟨hn, ht⟩ := hl _ List.mem_cons_self
      obtain ⟨hn', ht'⟩ := hl' _ List.mem_cons_self
      simp only [List.flatMap_cons, defineLine, List.append_assoc, List.cons_append,
        List.nil_append] at h
      obtain ⟨hname, hrest⟩ :=
        append_inj_of_marked hn hn' (marked_cons _ _) (marked_cons _ _) h
      obtain ⟨htext, hlines⟩ :=
        append_inj_of_marked ht ht' (marked_cons _ _) (marked_cons _ _) (List.cons.inj hrest).2
      obtain rfl := String.toList_inj.1 hname
      obtain rfl := String.toList_inj.1 htext
      rw [ih (fun x hx => hl x (List.mem_cons_of_mem _ hx))
        (fun x hx => hl' x (List.mem_cons_of_mem _ hx)) (List.cons.inj hlines).2]

namespace Project

/-- The part of the text that is the same for all projects. -/
def scanHead : String :=
  s!"v{databaseVersion}.{scannerRevision}\n" ++
    String.join (RecordKind.all.map fun kind => ",".intercalate kind.macroNames ++ "\n")

theorem toList_scanText (p : Project) :
    p.scanText.toList = scanHead.toList ++ p.defines.entries.flatMap defineLine := by
  have hline : ∀ e : String × String, (s!"{e.1}={e.2}\n").toList = defineLine e := by
    intro e
    simp [defineLine, toString]
  rw [scanText, String.toList_append, scanHead, String.toList_join, List.flatMap_map]
  simp only [hline]

/-- Projects whose scans are described by the same text have the same string
defines. -/
theorem defines_eq_of_scanText_eq {p q : Project} (hp : p.defines.Readable)
    (hq : q.defines.Readable) (h : p.scanText = q.scanText) : p.defines = q.defines := by
  have h := congrArg String.toList h
  rw [toList_scanText, toList_scanText] at h
  have hentries := flatMap_defineLine_inj hp hq (List.append_cancel_left h)
  exact SortedMap.ext_mem fun e => by rw [hentries]

end Project

end FlashStrings
