import FlashStrings.Proofs.Text.Utf8

/-!
# Texts of broken bytes

A byte of ASCII is no part of a longer sequence: it ends a sequence that has begun, and
stands for its own character.  So the text of any bytes can be cut where such a byte
stands, whether the bytes on both sides are well-formed or not
(`Utf8.toList_decodeLossy_append`).

Behind a broken sequence the reader starts anew (`Utf8.units_broken`).  Hence every
character of the text but U+FFFD stands in the bytes (`Utf8.subset_of_mem_decodeLossy`),
and the text has the same bytes just when they are well-formed
(`Utf8.encode_decodeLossy_iff`).
-/

namespace FlashStrings

namespace Utf8

/-- The byte that is owed is not one of ASCII. -/
def OwesHigh (pending : Option Pending) : Prop := ∀ p, pending = some p → 0x80 ≤ p.least

theorem owesHigh_none : OwesHigh none := nofun

/-- A first byte is a character of ASCII, or broken, or it begins a longer sequence. -/
theorem start_cases (b : Nat) : start b = ([some (Char.ofNat b)], none) ∨
    start b = ([none], none) ∨ ∃ p, start b = ([], some p) ∧ 0x80 ≤ p.least := by
  by_cases h1 : b < 0x80
  · exact .inl (start_one h1)
  by_cases h2 : b < 0xc2
  · exact .inr (.inl (by rw [start, if_neg h1, if_pos h2]))
  by_cases h3 : b < 0xe0
  · exact .inr (.inr ⟨_, start_two (by omega) h3, Nat.le_refl _⟩)
  by_cases h4 : b < 0xf0
  · exact .inr (.inr ⟨_, start_three (by omega) h4, by dsimp only; split <;> omega⟩)
  by_cases h5 : b < 0xf5
  · exact .inr (.inr ⟨_, start_four (by omega) h5, by dsimp only; split <;> omega⟩)
  · exact .inr (.inl (by
      rw [start, if_neg h1, if_neg h2, if_neg h3, if_neg h4, if_neg h5]))

theorem owesHigh_start (b : Nat) : OwesHigh (start b).2 := by
  rcases start_cases b with h | h | ⟨p, h, hleast⟩
  · exact h ▸ owesHigh_none
  · exact h ▸ owesHigh_none
  · rw [h]
    rintro _ ⟨⟩
    exact hleast

theorem owesHigh_feed (pending : Option Pending) (b : Nat) : OwesHigh (feed pending b).2 := by
  cases pending with
  | none => exact owesHigh_start b
  | some p =>
    rw [feed]
    split
    · dsimp only
      split
      · exact owesHigh_none
      · rintro _ ⟨⟩
        exact Nat.le_refl _
    · exact owesHigh_start b

/-- A byte of ASCII rules a sequence that has begun out. -/
theorem feed_ascii {pending : Option Pending} (h : OwesHigh pending) {b : Nat} (hb : b < 0x80) :
    feed pending b = ((pending.toList.map fun _ => none) ++ [some (Char.ofNat b)], none) := by
  cases pending with
  | none => exact start_one hb
  | some p =>
    have hleast := h p rfl
    rw [feed, if_neg (by omega), start_one hb]
    rfl

/-- The reader has nothing pending in front of a byte of ASCII and behind it. -/
theorem units_append_ascii {pending : Option Pending} (h : OwesHigh pending) (front : Bytes)
    {b : UInt8} (hb : b.toNat < 0x80) (back : Bytes) :
    units pending (front ++ b :: back) =
      units pending front ++ some (Char.ofNat b.toNat) :: units none back := by
  induction front generalizing pending with
  | nil => rw [List.nil_append, units_cons, feed_ascii h hb, List.append_assoc]; rfl
  | cons b' front ih =>
    rw [List.cons_append, units_cons, units_cons, ih (owesHigh_feed pending b'.toNat),
      List.append_assoc]

/-- The text of any bytes is cut where a byte of ASCII stands. -/
theorem toList_decodeLossy_append (front : Bytes) {b : UInt8} (hb : b.toNat < 0x80)
    (back : Bytes) : (decodeLossy (front ++ b :: back)).toList =
      (decodeLossy front).toList ++ Char.ofNat b.toNat :: (decodeLossy back).toList := by
  simp only [decodeLossy, String.toList_ofList, units_append_ascii owesHigh_none front hb,
    List.map_append, List.map_cons, Option.getD_some]

/-! ## Characters -/

/-- The reader starts anew behind a broken sequence. -/
theorem units_broken {pending : Option Pending} {bytes : Bytes} {us : List (Option Char)}
    (h : units pending bytes = none :: us) :
    ∃ skipped rest, bytes = skipped ++ rest ∧ units none rest = us := by
  induction bytes generalizing pending with
  | nil =>
    cases pending with
    | none => cases h
    | some p => exact ⟨[], [], rfl, (List.cons.inj h).2⟩
  | cons b bytes ih =>
    have later {p : Pending} (h : units (some p) bytes = none :: us) :
        ∃ skipped rest, b :: bytes = skipped ++ rest ∧ units none rest = us := by
      obtain ⟨skipped, rest, hbytes, hrest⟩ := ih h
      exact ⟨b :: skipped, rest, congrArg _ hbytes, hrest⟩
    rw [units_cons] at h
    cases pending with
    | none =>
      rw [feed] at h
      rcases start_cases b.toNat with hstart | hstart | ⟨p, hstart, -⟩
      · rw [hstart] at h
        cases (List.cons.inj h).1
      · rw [hstart] at h
        exact ⟨[b], bytes, rfl, (List.cons.inj h).2⟩
      · rw [hstart] at h
        exact later h
    | some p =>
      rw [feed] at h
      split at h
      · dsimp only at h
        split at h
        · cases (List.cons.inj h).1
        · exact later h
      · -- The byte that rules the sequence out is read once more.
        exact ⟨[], b :: bytes, rfl, (List.cons.inj h).2⟩

/-- The bytes of a character that was read stand behind each other. -/
theorem subset_of_mem_units {bytes : Bytes} {c : Char} (h : some c ∈ units none bytes) :
    String.utf8EncodeChar c ⊆ bytes := by
  generalize hus : units none bytes = us at h
  induction us generalizing bytes with
  | nil => cases h
  | cons u us ih =>
    cases u with
    | none =>
      obtain ⟨skipped, rest, rfl, hrest⟩ := units_broken hus
      have hmem : some c ∈ us := (List.mem_cons.1 h).resolve_left nofun
      exact List.Subset.trans (ih hrest hmem) (List.subset_append_right ..)
    | some d =>
      obtain ⟨rest, rfl, hrest⟩ := eq_append_of_units hus
      rcases List.mem_cons.1 h with heq | hmem
      · exact Option.some.inj heq ▸ List.subset_append_left ..
      · exact List.Subset.trans (ih hrest hmem) (List.subset_append_right ..)

/-- Every character of the text but the replacement stands in the bytes. -/
theorem subset_of_mem_decodeLossy {bytes : Bytes} {c : Char} (hc : c ≠ '\uFFFD')
    (h : c ∈ (decodeLossy bytes).toList) : String.utf8EncodeChar c ⊆ bytes := by
  rw [decodeLossy, String.toList_ofList] at h
  obtain ⟨u, hu, heq⟩ := List.mem_map.1 h
  cases u with
  | none => exact absurd heq.symm hc
  | some d =>
    obtain rfl : d = c := heq
    exact subset_of_mem_units hu

/-- The bytes of a text are read as the text. -/
@[simp] theorem decodeLossy_encode (text : String) : decodeLossy (encode text) = text := by
  rw [decodeLossy, encode, units_flatMap, List.map_map]
  exact (congrArg String.ofList (List.map_id _)).trans String.ofList_toList

/-- The text has the same bytes just when they are well-formed. -/
theorem encode_decodeLossy_iff {bytes : Bytes} :
    encode (decodeLossy bytes) = bytes ↔ (decode? bytes).isSome = true := by
  constructor
  · intro h
    rw [← h, decode?_encode]
    rfl
  · intro h
    obtain ⟨text, htext⟩ := Option.isSome_iff_exists.1 h
    rw [decode?_eq_some_iff.1 htext, decodeLossy_encode]

example : decodeLossy [0xe2, 0x82, 0x22, 0xc2, 0xb0, 0x22, 0xff] = "\uFFFD\"°\"\uFFFD" := by
  decide +kernel

end Utf8

end FlashStrings
