import FlashStrings.Proofs.Except
import FlashStrings.Source.Scan

/-!
# Records of a scan

Every record of a scan comes from arguments that were read without an error
(`gives_of_mem_recordsOf_scan`).  In particular a record of a kind that needs a text
gives a fallback (`givesText_of_mem_recordsOf_scan`).
-/

namespace FlashStrings

/-- A record whose kind needs a text gives a fallback. -/
def Record.GivesText (r : Record) : Prop :=
  Scan.needsText r.kind = true → r.value.fallback.isSome = true

namespace Scan

variable {settings : ScanSettings} {c : Cursor} {body : DefineBody} {r : Record}

/-- Arguments that are accepted are read, and give a fallback when the kind needs
a text. -/
theorem readArguments_eq_ok {kind : RecordKind} {ps : List Piece} {read : Invocation}
    (h : readArguments settings kind ps = .ok read) :
    Argument.readAll settings.defines true ps = .ok read ∧
      (needsText kind = true → read.value.fallback.isSome = true) := by
  rw [readArguments] at h
  obtain ⟨read', hread, h⟩ := bind_eq_ok h
  split at h
  · cases h
  · next hneeds =>
    obtain rfl := Except.ok.inj h
    refine ⟨hread, fun hkind => ?_⟩
    simpa [hkind, Option.isSome_iff_ne_none] using hneeds

/-- Arguments that are refused cannot be read, or give no text. -/
theorem readArguments_eq_error {kind : RecordKind} {ps : List Piece} {e : ArgumentError}
    (h : readArguments settings kind ps = .error e) :
    Argument.readAll settings.defines true ps = .error e ∨ e = .missingValue := by
  rw [readArguments] at h
  rcases bind_eq_error h with hread | ⟨read, -, h⟩
  · exact .inl hread
  · split at h
    · exact .inr (Except.error.inj h).symm
    · cases h

/-- The record is what some arguments that were collected give. -/
def Gives (settings : ScanSettings) (r : Record) : Prop :=
  ∃ s ps width, Argument.extract s = .ok (ps, width) ∧
    readArguments settings r.kind ps = .ok ⟨r.identifier, r.value⟩

theorem Gives.givesText (h : Gives settings r) : r.GivesText := by
  obtain ⟨_, _, _, -, hread⟩ := h
  exact (readArguments_eq_ok hread).2

/-! ## One step -/

theorem gives_of_invocation {kind : RecordKind} {name : String} {s : List Char}
    (h : (invocation settings c body kind name s).1 = some (.record r)) : Gives settings r := by
  rw [invocation] at h
  split at h
  · cases h
  · next ps width hextract =>
    split at h
    · cases h
    · split at h
      · cases h
      · next read hread =>
        simp only [Option.some.injEq, Finding.record.injEq] at h
        subst h
        exact ⟨s, ps, width, hextract, hread⟩

theorem found_directive (c : Cursor) (body : DefineBody) (s : List Char) :
    (directive c body s).found = none := by
  simp only [directive]
  repeat' split
  all_goals rfl

theorem gives_of_name {first : Char} {s : List Char}
    (h : (name settings c body first s).found = some (.record r)) : Gives settings r := by
  simp only [name] at h
  split at h
  · cases h
  · split at h
    · cases h
    · split at h
      · exact gives_of_invocation h
      · cases h

theorem gives_of_step {first : Char} {s : List Char}
    (h : (step settings c body first s).found = some (.record r)) : Gives settings r := by
  rw [step] at h
  split at h
  · cases h
  · split at h
    · rw [found_directive] at h
      cases h
    · split at h
      · exact gives_of_name h
      · split at h <;> cases h

/-! ## All steps -/

theorem gives_of_run {found : List Finding} (hfound : ∀ r, .record r ∈ found → Gives settings r)
    (h : .record r ∈ run settings c body found) : Gives settings r := by
  fun_induction run settings c body found with
  | case1 c body found hnil => exact hfound r (List.mem_reverse.1 h)
  | case2 c body found first s hcons next hlt ih =>
    refine ih (fun r' hr' => ?_) h
    rcases List.mem_append.1 hr' with hr' | hr'
    · exact gives_of_step (Option.mem_toList.1 hr')
    · exact hfound r' hr'

end Scan

theorem mem_recordsOf {found : List Finding} {r : Record} :
    r ∈ recordsOf found ↔ .record r ∈ found := by
  rw [recordsOf, List.mem_filterMap]
  constructor
  · rintro ⟨x, hx, hr⟩
    cases x with
    | record r' =>
      obtain rfl := Option.some.inj hr
      exact hx
    | refused e => cases hr
  · exact fun h => ⟨.record r, h, rfl⟩

theorem mem_errorsOf {found : List Finding} {e : ParseError} :
    e ∈ errorsOf found ↔ .refused e ∈ found := by
  rw [errorsOf, List.mem_filterMap]
  constructor
  · rintro ⟨x, hx, he⟩
    cases x with
    | record r => cases he
    | refused e' =>
      obtain rfl := Option.some.inj he
      exact hx
  · exact fun h => ⟨.refused e, h, rfl⟩

/-- Every record of a scan is what some arguments give. -/
theorem gives_of_mem_recordsOf_scan {settings : ScanSettings} {text : String} {r : Record}
    (h : r ∈ recordsOf (scan settings text)) : Scan.Gives settings r := by
  refine Scan.gives_of_run (fun r' hr' => ?_) (mem_recordsOf.1 h)
  cases hr'

end FlashStrings
