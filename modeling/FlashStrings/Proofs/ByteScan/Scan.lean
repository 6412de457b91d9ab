import FlashStrings.Proofs.ByteScan.Steps

/-!
# The scan by byte offsets

Every state that a scan by offsets reaches follows one of a scan by characters
(`Reaches.exists_follows`).  So each step has an answer, goes on and stays in the text, and
the scan ends with what the scan by characters finds (`byteScan_eq`).
-/

namespace FlashStrings

namespace ByteScan

variable {settings : ScanSettings} {text : List Char} {σ σ' : State} {τ : Scan.State}

/-- The second state is behind the step at the first one. -/
def Steps (settings : ScanSettings) (text : List Char) (σ σ' : State) : Prop :=
  ∃ c, byteAt? (utf8 text) σ.pos = some c ∧ step? settings text σ c = some σ'

/-- The second state is reached from the first one. -/
def Reaches (settings : ScanSettings) (text : List Char) : State → State → Prop :=
  Relation.ReflTransGen (Steps settings text)

theorem matches_initial (text : String) : Matches {} (Scan.initial text) where
  pos := rfl
  bodyEnd := rfl
  params := rfl
  records := rfl
  errors := rfl

/-- Each reached state follows one that the scan by characters reaches. -/
theorem Reaches.exists_follows {text : String} (h : Reaches settings (withoutMark text) {} σ) :
    ∃ τ, Scan.State.Reaches settings (Scan.initial text) τ ∧ Follows σ τ := by
  induction h with
  | refl => exact ⟨_, .refl, (matches_initial text).follows⟩
  | tail _ hstep ih =>
    obtain ⟨τ, hreaches, hfollows⟩ := ih
    obtain ⟨c, hbyte, hstep⟩ := hstep
    have htext : τ.cursor.text = withoutMark text := hreaches.text_eq
    rw [← htext] at hbyte hstep
    obtain ⟨σ', τ', hstep', hfollows', hnext⟩ := hfollows.step?_eq settings hbyte
    obtain rfl := Option.some.inj (hstep'.symm.trans hstep)
    rcases hnext with rfl | hnext
    · exact ⟨τ', hreaches, hfollows'⟩
    · exact ⟨τ', hreaches.tail hnext, hfollows'⟩

/-- At the end of the text the scan by characters is at its end, too. -/
theorem Follows.at_end (h : Follows σ τ) (hend : byteAt? (utf8 τ.cursor.text) σ.pos = none) :
    Matches σ τ ∧ τ.cursor.after = [] := by
  obtain ⟨k, hmatches, hwide⟩ := h
  cases k with
  | zero =>
    replace hmatches : Matches σ τ := hmatches
    refine ⟨hmatches, ?_⟩
    have hat := hmatches.at_after
    cases hafter : τ.cursor.after with
    | nil => rfl
    | cons c s =>
      rw [hafter] at hat
      simp [hat.byteAt?_cons] at hend
  | succ k =>
    obtain ⟨d, hd, -⟩ := hwide 0 (Nat.succ_pos k)
    exact nomatch hend.symm.trans hd

theorem run_of_none (h : byteAt? (utf8 text) σ.pos = none) : run settings text σ = some σ := by
  rw [run]
  split
  · rfl
  · next heq => simp [h] at heq

theorem run_of_steps (h : Steps settings text σ σ') :
    run settings text σ = run settings text σ' := by
  obtain ⟨c, hbyte, hstep⟩ := h
  rw [run]
  split
  · next heq => simp [hbyte] at heq
  · next d heq =>
    obtain rfl := Option.some.inj (hbyte.symm.trans heq)
    split
    · next hnone => simp [hstep] at hnone
    · next ρ hsome => rw [Option.some.inj (hstep.symm.trans hsome)]

/-- A scan ends, and with what the scan by characters gives. -/
theorem Follows.run_eq (h : Follows σ τ) (settings : ScanSettings) :
    ∃ σ', run settings τ.cursor.text σ = some σ' ∧
      σ'.records = recordsOf (τ.outcome settings) ∧
      σ'.errors = errorsOf (τ.outcome settings) := by
  induction hn : byteSize τ.cursor.text - σ.pos using Nat.strong_induction_on generalizing σ τ with
  | _ n ih =>
  cases hbyte : byteAt? (utf8 τ.cursor.text) σ.pos with
  | none =>
    obtain ⟨hmatches, hafter⟩ := h.at_end hbyte
    refine ⟨σ, run_of_none hbyte, ?_⟩
    rw [Scan.State.outcome, Scan.run_of_after_nil hafter]
    exact ⟨hmatches.records, hmatches.errors⟩
  | some c =>
    obtain ⟨σ', τ', hstep, hfollows, hnext⟩ := h.step?_eq settings hbyte
    have hlt := lt_step? hbyte hstep
    have houtcome : τ'.cursor.text = τ.cursor.text ∧ τ'.outcome settings = τ.outcome settings := by
      rcases hnext with rfl | hnext
      · exact ⟨rfl, rfl⟩
      · exact ⟨Scan.State.Reaches.text_eq (.single hnext), (Scan.State.outcome_of_next? hnext).symm⟩
    have hpos := lt_length_of_byteAt? hbyte
    have hsize : (utf8 τ.cursor.text).length = byteSize τ.cursor.text := rfl
    obtain ⟨ρ, hrun, hrecords, herrors⟩ := ih (byteSize τ'.cursor.text - σ'.pos)
      (by rw [houtcome.1]; omega) hfollows rfl
    rw [houtcome.1] at hrun
    rw [houtcome.2] at hrecords herrors
    exact ⟨ρ, (run_of_steps ⟨c, hbyte, hstep⟩).trans hrun, hrecords, herrors⟩

end ByteScan

open ByteScan

/-- Both forms of the scan find the same. -/
theorem byteScan_eq (settings : ScanSettings) (text : String) :
    byteScan settings text =
      some (recordsOf (scan settings text), errorsOf (scan settings text)) := by
  obtain ⟨σ, hrun, hrecords, herrors⟩ := (matches_initial text).follows.run_eq settings
  rw [byteScan, show run settings (withoutMark text) {} = some σ from hrun, Option.map_some,
    hrecords, herrors, Scan.State.outcome_initial]

/-- A scan by offsets ends with what the scan by characters finds.  On the way each step has
an answer, so that every part of the text that it takes begins and ends with characters
(`slice?_eq_some_iff`); each step goes on, and none leads out of the text. -/
theorem byteScan_ends (settings : ScanSettings) (text : String) :
    (∀ σ, Reaches settings (withoutMark text) {} σ →
      σ.pos ≤ byteSize (withoutMark text) ∧
      (σ.pos < byteSize (withoutMark text) →
        ∃ σ', Steps settings (withoutMark text) σ σ' ∧ σ.pos < σ'.pos ∧
          σ'.pos ≤ byteSize (withoutMark text))) ∧
    byteScan settings text =
      some (recordsOf (scan settings text), errorsOf (scan settings text)) := by
  refine ⟨fun σ hreaches => ?_, byteScan_eq settings text⟩
  obtain ⟨τ, hτ, hfollows⟩ := hreaches.exists_follows
  have htext : τ.cursor.text = withoutMark text := hτ.text_eq
  refine ⟨htext ▸ hfollows.pos_le, fun hlt => ?_⟩
  obtain ⟨c, hbyte⟩ : ∃ c, byteAt? (utf8 (withoutMark text)) σ.pos = some c :=
    Option.ne_none_iff_exists'.1 fun hnone =>
      Nat.not_le_of_lt hlt (byteAt?_eq_none_iff.1 hnone)
  rw [← htext] at hbyte ⊢
  obtain ⟨σ', τ', hstep, hfollows', hnext⟩ := hfollows.step?_eq settings hbyte
  refine ⟨σ', ⟨c, hbyte, hstep⟩, lt_step? hbyte hstep, ?_⟩
  rcases hnext with rfl | hnext
  · exact hfollows'.pos_le
  · rw [← Scan.State.Reaches.text_eq (.single hnext)]
    exact hfollows'.pos_le

end FlashStrings
