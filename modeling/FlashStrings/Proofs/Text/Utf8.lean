import FlashStrings.Text.Utf8

/-!
# UTF-8 there and back

Reading the bytes of a text gives the text (`Utf8.decode?_encode`), so texts with
the same bytes are equal, and no other bytes are read as the text
(`Utf8.decode?_eq_some_iff`).  A zero byte stands in the bytes of a text only for the
character U+0000.
-/

namespace FlashStrings

namespace Utf8

/-! ## One byte -/

theorem units_cons (pending : Option Pending) (b : UInt8) (bytes : Bytes) :
    units pending (b :: bytes) =
      (feed pending b.toNat).1 ++ units (feed pending b.toNat).2 bytes := rfl

theorem toNat_ofNat {n : Nat} (h : n < 256) : (UInt8.ofNat n).toNat = n := by
  rw [UInt8.toNat_ofNat']
  exact Nat.mod_eq_of_lt h

theorem feed_last {least greatest bits b : Nat} (hl : least ≤ b) (hg : b ≤ greatest) :
    feed (some ⟨1, least, greatest, bits⟩) b =
      ([some (Char.ofNat (bits * 0x40 + b % 0x40))], none) := by
  simp [feed, hl, hg]

theorem feed_more {owed least greatest bits b : Nat} (hl : least ≤ b) (hg : b ≤ greatest) :
    feed (some ⟨owed + 2, least, greatest, bits⟩) b =
      ([], some ⟨owed + 1, 0x80, 0xbf, bits * 0x40 + b % 0x40⟩) := by
  simp [feed, hl, hg]

/-! ## The first byte of a sequence -/

theorem start_one {b : Nat} (h : b < 0x80) : start b = ([some (Char.ofNat b)], none) := by
  simp [start, h]

theorem start_two {b : Nat} (hl : 0xc2 ≤ b) (hg : b < 0xe0) :
    start b = ([], some ⟨1, 0x80, 0xbf, b % 0x20⟩) := by
  rw [start, if_neg (by omega), if_neg (by omega), if_pos hg]

theorem start_three {b : Nat} (hl : 0xe0 ≤ b) (hg : b < 0xf0) :
    start b = ([], some ⟨2, if b = 0xe0 then 0xa0 else 0x80,
      if b = 0xed then 0x9f else 0xbf, b % 0x10⟩) := by
  rw [start, if_neg (by omega), if_neg (by omega), if_neg (by omega), if_pos hg]

theorem start_four {b : Nat} (hl : 0xf0 ≤ b) (hg : b < 0xf5) :
    start b = ([], some ⟨3, if b = 0xf0 then 0x90 else 0x80,
      if b = 0xf4 then 0x8f else 0xbf, b % 0x08⟩) := by
  rw [start, if_neg (by omega), if_neg (by omega), if_neg (by omega), if_neg (by omega),
    if_pos hg]

/-! ## One character -/

/-- The number of a character is no surrogate and below U+110000. -/
theorem toNat_cases (c : Char) : c.toNat < 0xd800 ∨ 0xdfff < c.toNat ∧ c.toNat < 0x110000 :=
  c.valid

/-- The reader takes the bytes of a character as that character. -/
theorem units_utf8EncodeChar (c : Char) (bytes : Bytes) :
    units none (String.utf8EncodeChar c ++ bytes) = some c :: units none bytes := by
  have hv := toNat_cases c
  have hc : Char.ofNat c.toNat = c := Char.ofNat_toNat c
  simp only [String.utf8EncodeChar, show c.val.toNat = c.toNat from rfl]
  generalize c.toNat = v at *
  by_cases h1 : v ≤ 0x7f
  · simp only [h1, if_true, List.cons_append, List.nil_append, units_cons]
    rw [toNat_ofNat (by omega), feed, start_one (by omega), hc]
    rfl
  by_cases h2 : v ≤ 0x7ff
  · simp only [h1, h2, if_true, if_false, List.cons_append, List.nil_append, units_cons]
    rw [toNat_ofNat (by omega), toNat_ofNat (by omega), feed, start_two (by omega) (by omega),
      feed_last (by omega) (by omega)]
    simp only [List.nil_append, List.singleton_append]
    rw [show (v / 64 % 0x20 + 0xc0) % 0x20 * 0x40 + (v % 0x40 + 0x80) % 0x40 = v by omega, hc]
  by_cases h3 : v ≤ 0xffff
  · simp only [h1, h2, h3, if_true, if_false, List.cons_append, List.nil_append, units_cons]
    rw [toNat_ofNat (by omega), toNat_ofNat (by omega), toNat_ofNat (by omega), feed,
      start_three (by omega) (by omega), feed_more (by split <;> omega) (by split <;> omega),
      feed_last (by omega) (by omega)]
    simp only [List.nil_append, List.singleton_append]
    rw [show ((v / 4096 % 0x10 + 0xe0) % 0x10 * 0x40 + (v / 64 % 0x40 + 0x80) % 0x40) * 0x40 +
      (v % 0x40 + 0x80) % 0x40 = v by omega, hc]
  · simp only [h1, h2, h3, if_false, List.cons_append, List.nil_append, units_cons]
    rw [toNat_ofNat (by omega), toNat_ofNat (by omega), toNat_ofNat (by omega),
      toNat_ofNat (by omega), feed, start_four (by omega) (by omega),
      feed_more (by split <;> omega) (by split <;> omega), feed_more (by omega) (by omega),
      feed_last (by omega) (by omega)]
    simp only [List.nil_append, List.singleton_append]
    rw [show (((v / 262144 % 0x08 + 0xf0) % 0x08 * 0x40 + (v / 4096 % 0x40 + 0x80) % 0x40) * 0x40 +
      (v / 64 % 0x40 + 0x80) % 0x40) * 0x40 + (v % 0x40 + 0x80) % 0x40 = v by omega, hc]

/-! ## Texts -/

theorem units_flatMap (s : List Char) :
    units none (s.flatMap String.utf8EncodeChar) = s.map some := by
  induction s with
  | nil => rfl
  | cons c s ih => rw [List.flatMap_cons, units_utf8EncodeChar, ih, List.map_cons]

theorem mapM_id_map_some {α : Type} (l : List α) : (l.map some).mapM id = some l := by
  induction l with
  | nil => rfl
  | cons a l ih => simp [List.mapM_cons, ih]

/-- Reading the bytes of a text gives the text. -/
@[simp] theorem decode?_encode (text : String) : decode? (encode text) = some text := by
  rw [decode?, encode, units_flatMap, mapM_id_map_some, Option.map_some, String.ofList_toList]

theorem encode_injective {s t : String} (h : encode s = encode t) : s = t :=
  Option.some.inj (by rw [← decode?_encode s, h, decode?_encode])

/-! ## What is read as a text -/

/-- A sequence that owes one byte is completed by it. -/
theorem units_last {least greatest bits : Nat} {bytes : Bytes} {c : Char} {us : List (Option Char)}
    (h : units (some ⟨1, least, greatest, bits⟩) bytes = some c :: us) :
    ∃ b rest, bytes = b :: rest ∧ least ≤ b.toNat ∧ b.toNat ≤ greatest ∧
      c = Char.ofNat (bits * 0x40 + b.toNat % 0x40) ∧ units none rest = us := by
  cases bytes with
  | nil => simp [units] at h
  | cons b rest =>
    rw [units_cons] at h
    by_cases hb : least ≤ b.toNat ∧ b.toNat ≤ greatest
    · rw [feed_last hb.1 hb.2] at h
      obtain ⟨hc, hus⟩ := List.cons.inj h
      exact ⟨b, rest, rfl, hb.1, hb.2, (Option.some.inj hc).symm, hus⟩
    · simp [feed, hb] at h

/-- A sequence that owes more goes on with the next byte. -/
theorem units_more {owed least greatest bits : Nat} {bytes : Bytes} {c : Char}
    {us : List (Option Char)}
    (h : units (some ⟨owed + 2, least, greatest, bits⟩) bytes = some c :: us) :
    ∃ b rest, bytes = b :: rest ∧ least ≤ b.toNat ∧ b.toNat ≤ greatest ∧
      units (some ⟨owed + 1, 0x80, 0xbf, bits * 0x40 + b.toNat % 0x40⟩) rest = some c :: us := by
  cases bytes with
  | nil => simp [units] at h
  | cons b rest =>
    rw [units_cons] at h
    by_cases hb : least ≤ b.toNat ∧ b.toNat ≤ greatest
    · rw [feed_more hb.1 hb.2, List.nil_append] at h
      exact ⟨b, rest, rfl, hb.1, hb.2, h⟩
    · simp [feed, hb] at h

theorem ofNat_eq {n : Nat} {b : UInt8} (h : n = b.toNat) : UInt8.ofNat n = b := by
  rw [h, UInt8.ofNat_toNat]

/-- The bytes of the character with a number. -/
theorem utf8EncodeChar_ofNat {v : Nat} (h : v < 0xd800 ∨ 0xdfff < v ∧ v < 0x110000) :
    String.utf8EncodeChar (Char.ofNat v) =
      if v ≤ 0x7f then [UInt8.ofNat v]
      else if v ≤ 0x7ff then
        [UInt8.ofNat (v / 64 % 0x20 + 0xc0), UInt8.ofNat (v % 0x40 + 0x80)]
      else if v ≤ 0xffff then
        [UInt8.ofNat (v / 4096 % 0x10 + 0xe0), UInt8.ofNat (v / 64 % 0x40 + 0x80),
          UInt8.ofNat (v % 0x40 + 0x80)]
      else
        [UInt8.ofNat (v / 262144 % 0x08 + 0xf0), UInt8.ofNat (v / 4096 % 0x40 + 0x80),
          UInt8.ofNat (v / 64 % 0x40 + 0x80), UInt8.ofNat (v % 0x40 + 0x80)] := by
  have hv : (Char.ofNat v).val.toNat = v := by
    rw [Char.ofNat, dif_pos h]
    rfl
  simp only [String.utf8EncodeChar, hv]

/-- What the reader takes as a character are the bytes of that character. -/
theorem eq_append_of_units {bytes : Bytes} {c : Char} {us : List (Option Char)}
    (h : units none bytes = some c :: us) :
    ∃ rest, bytes = String.utf8EncodeChar c ++ rest ∧ units none rest = us := by
  cases bytes with
  | nil => simp [units] at h
  | cons b bytes =>
    have hb := b.toNat_lt
    rw [units_cons, feed] at h
    by_cases h1 : b.toNat < 0x80
    · rw [start_one h1] at h
      obtain ⟨hc, hus⟩ := List.cons.inj h
      obtain rfl := Option.some.inj hc
      refine ⟨bytes, ?_, hus⟩
      rw [utf8EncodeChar_ofNat (by omega), if_pos (by omega), ofNat_eq rfl, List.singleton_append]
    by_cases h2 : b.toNat < 0xc2
    · simp [start, h1, h2] at h
    by_cases h3 : b.toNat < 0xe0
    · rw [start_two (by omega) h3, List.nil_append] at h
      obtain ⟨b₂, rest, rfl, hl₂, hg₂, rfl, hus⟩ := units_last h
      refine ⟨rest, ?_, hus⟩
      rw [utf8EncodeChar_ofNat (by omega), if_neg (by omega), if_pos (by omega),
        ofNat_eq (b := b) (by omega), ofNat_eq (b := b₂) (by omega)]
      rfl
    by_cases h4 : b.toNat < 0xf0
    · rw [start_three (by omega) h4, List.nil_append] at h
      obtain ⟨b₂, rest, rfl, hl₂, hg₂, h⟩ := units_more h
      obtain ⟨b₃, rest, rfl, hl₃, hg₃, rfl, hus⟩ := units_last h
      refine ⟨rest, ?_, hus⟩
      have hl : 0x80 ≤ b₂.toNat ∧ (b.toNat = 0xe0 → 0xa0 ≤ b₂.toNat) := by
        split at hl₂ <;> omega
      have hg : b₂.toNat ≤ 0xbf ∧ (b.toNat = 0xed → b₂.toNat ≤ 0x9f) := by
        split at hg₂ <;> omega
      clear hl₂ hg₂
      rw [utf8EncodeChar_ofNat (by omega), if_neg (by omega), if_neg (by omega), if_pos (by omega),
        ofNat_eq (b := b) (by omega), ofNat_eq (b := b₂) (by omega), ofNat_eq (b := b₃) (by omega)]
      rfl
    by_cases h5 : b.toNat < 0xf5
    · rw [start_four (by omega) h5, List.nil_append] at h
      obtain ⟨b₂, rest, rfl, hl₂, hg₂, h⟩ := units_more h
      obtain ⟨b₃, rest, rfl, hl₃, hg₃, h⟩ := units_more h
      obtain ⟨b₄, rest, rfl, hl₄, hg₄, rfl, hus⟩ := units_last h
      refine ⟨rest, ?_, hus⟩
      have hl : 0x80 ≤ b₂.toNat ∧ (b.toNat = 0xf0 → 0x90 ≤ b₂.toNat) := by
        split at hl₂ <;> omega
      have hg : b₂.toNat ≤ 0xbf ∧ (b.toNat = 0xf4 → b₂.toNat ≤ 0x8f) := by
        split at hg₂ <;> omega
      clear hl₂ hg₂
      rw [utf8EncodeChar_ofNat (by omega), if_neg (by omega), if_neg (by omega), if_neg (by omega),
        ofNat_eq (b := b) (by omega), ofNat_eq (b := b₂) (by omega),
        ofNat_eq (b := b₃) (by omega), ofNat_eq (b := b₄) (by omega)]
      rfl
    · simp [start, h1, h2, h3, h4, h5] at h

theorem start_ne (b : Nat) : start b ≠ ([], none) := by
  rw [start]
  repeat' split
  all_goals simp

/-- A byte completes something, rules something out, or begins a sequence. -/
theorem feed_ne (pending : Option Pending) (b : Nat) : feed pending b ≠ ([], none) := by
  cases pending with
  | none => exact start_ne b
  | some p =>
    rw [feed]
    split
    · dsimp only
      split <;> simp
    · simp

theorem eq_nil_of_units {pending : Option Pending} {bytes : Bytes} (h : units pending bytes = []) :
    pending = none ∧ bytes = [] := by
  induction bytes generalizing pending with
  | nil => exact ⟨by simpa [units] using h, rfl⟩
  | cons b bytes ih =>
    rw [units_cons] at h
    obtain ⟨hnil, hrest⟩ := List.append_eq_nil_iff.1 h
    exact absurd (Prod.ext hnil (ih hrest).1) (feed_ne pending b.toNat)

theorem eq_flatMap_of_units {bytes : Bytes} {s : List Char} (h : units none bytes = s.map some) :
    bytes = s.flatMap String.utf8EncodeChar := by
  induction s generalizing bytes with
  | nil => exact (eq_nil_of_units h).2
  | cons c s ih =>
    obtain ⟨rest, rfl, hrest⟩ := eq_append_of_units h
    rw [List.flatMap_cons, ← ih hrest]

theorem eq_map_some_of_mapM {α : Type} {l : List (Option α)} {s : List α}
    (h : l.mapM id = some s) : l = s.map some := by
  induction l generalizing s with
  | nil =>
    obtain rfl : [] = s := Option.some.inj h
    rfl
  | cons a l ih =>
    simp only [List.mapM_cons, id_eq, Option.bind_eq_bind, Option.bind_eq_some_iff] at h
    obtain ⟨c, rfl, s, hs, hcons⟩ := h
    rw [ih hs, ← Option.some.inj hcons, List.map_cons]

/-- Bytes are read as a text if they are the bytes of the text. -/
theorem decode?_eq_some_iff {bytes : Bytes} {text : String} :
    decode? bytes = some text ↔ bytes = encode text := by
  constructor
  · intro h
    obtain ⟨s, hs, rfl⟩ := Option.map_eq_some_iff.1 h
    rw [encode, String.toList_ofList]
    exact eq_flatMap_of_units (eq_map_some_of_mapM hs)
  · rintro rfl
    exact decode?_encode text

/-! ## The zero byte -/

theorem ofNat_ne_zero {n : Nat} (h : 0 < n) (h' : n < 256) : (0 : UInt8) ≠ UInt8.ofNat n := by
  intro he
  have : (UInt8.ofNat n).toNat = 0 := by rw [← he]; rfl
  rw [toNat_ofNat h'] at this
  omega

theorem zero_not_mem_utf8EncodeChar {c : Char} (h : c ≠ '\x00') :
    0 ∉ String.utf8EncodeChar c := by
  have hv := toNat_cases c
  have h0 : c.toNat ≠ 0 := fun h0 => h (by rw [← Char.ofNat_toNat c, h0])
  simp only [String.utf8EncodeChar, show c.val.toNat = c.toNat from rfl]
  generalize c.toNat = v at *
  split
  · simp only [List.mem_singleton]
    exact ofNat_ne_zero (by omega) (by omega)
  split
  · simp only [List.mem_cons, List.not_mem_nil, or_false, not_or]
    exact ⟨ofNat_ne_zero (by omega) (by omega), ofNat_ne_zero (by omega) (by omega)⟩
  split
  · simp only [List.mem_cons, List.not_mem_nil, or_false, not_or]
    exact ⟨ofNat_ne_zero (by omega) (by omega), ofNat_ne_zero (by omega) (by omega),
      ofNat_ne_zero (by omega) (by omega)⟩
  · simp only [List.mem_cons, List.not_mem_nil, or_false, not_or]
    exact ⟨ofNat_ne_zero (by omega) (by omega), ofNat_ne_zero (by omega) (by omega),
      ofNat_ne_zero (by omega) (by omega), ofNat_ne_zero (by omega) (by omega)⟩

/-- A text without U+0000 has no zero byte. -/
theorem zero_not_mem_encode {text : String} (h : '\x00' ∉ text.toList) : 0 ∉ encode text := by
  intro hmem
  obtain ⟨c, hc, h0⟩ := List.mem_flatMap.1 hmem
  have hne : c ≠ '\x00' := fun he => h (he ▸ hc)
  exact zero_not_mem_utf8EncodeChar hne h0

end Utf8

end FlashStrings
