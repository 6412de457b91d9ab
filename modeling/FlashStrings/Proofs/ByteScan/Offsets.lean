import FlashStrings.ByteScan.Ends
import FlashStrings.Proofs.Text.Utf8
import Mathlib.Data.List.Basic

/-!
# Offsets at characters

`At text i s` says that the text goes on with `s` at the byte offset `i`, so that `i` is
the end of a character and not inside of one.  What a scan reads there is told by the
first character (`At.byteAt?_cons`), and what stands between two such offsets can be
taken (`At.slice?_append`).

Inside of a character every byte is outside of the ASCII range.  A function of the offset
that passes over such bytes passes over the whole character (`At.skip`).
-/

namespace FlashStrings

namespace ByteScan

/-! ## Bytes of a text -/

@[simp] theorem utf8_nil : utf8 [] = [] := rfl

@[simp] theorem utf8_cons (c : Char) (s : List Char) :
    utf8 (c :: s) = String.utf8EncodeChar c ++ utf8 s := rfl

@[simp] theorem utf8_append (s t : List Char) : utf8 (s ++ t) = utf8 s ++ utf8 t :=
  List.flatMap_append

@[simp] theorem byteSize_nil : byteSize [] = 0 := rfl

@[simp] theorem byteSize_cons (c : Char) (s : List Char) :
    byteSize (c :: s) = c.utf8Size + byteSize s := by
  simp [byteSize]

@[simp] theorem byteSize_append (s t : List Char) :
    byteSize (s ++ t) = byteSize s + byteSize t := by
  simp [byteSize]

theorem byteSize_take_add (m n : Nat) (s : List Char) :
    byteSize (s.take (m + n)) = byteSize (s.take m) + byteSize ((s.drop m).take n) := by
  rw [List.take_add, byteSize_append]

theorem byteSize_pos {s : List Char} (h : s ≠ []) : 0 < byteSize s := by
  cases s with
  | nil => exact absurd rfl h
  | cons c s =>
    rw [byteSize_cons]
    exact Nat.add_pos_left c.utf8Size_pos _

/-! ## Bytes of a character -/

theorem toNat_lt_of_isAscii {c : Char} (h : isAscii c = true) : c.toNat < 0x80 := by
  simpa [isAscii] using h

/-- A character in the ASCII range is one byte, which is its number. -/
theorem utf8EncodeChar_of_isAscii {c : Char} (h : isAscii c = true) :
    ∃ b, String.utf8EncodeChar c = [b] ∧ Char.ofUInt8 b = c := by
  have hlt := toNat_lt_of_isAscii h
  refine ⟨UInt8.ofNat c.toNat, ?_, ?_⟩
  · simp only [String.utf8EncodeChar, show c.val.toNat = c.toNat from rfl]
    rw [if_pos (Nat.le_of_lt_succ hlt)]
  · apply Char.toNat_inj.1
    show (UInt8.ofNat c.toNat).toNat = c.toNat
    exact Utf8.toNat_ofNat (by omega)

theorem isAscii_ofUInt8_ofNat {n : Nat} (h : 0x80 ≤ n) (hlt : n < 0x100) :
    isAscii (Char.ofUInt8 (UInt8.ofNat n)) = false := by
  show decide ((UInt8.ofNat n).toNat < 0x80) = false
  rw [Utf8.toNat_ofNat hlt]
  exact decide_eq_false (Nat.not_lt.2 h)

/-- Every byte of any other character is outside of the ASCII range. -/
theorem isAscii_of_mem_utf8EncodeChar {c : Char} (h : isAscii c = false) {b : UInt8}
    (hb : b ∈ String.utf8EncodeChar c) : isAscii (Char.ofUInt8 b) = false := by
  have hge : 0x80 ≤ c.toNat := by simpa [isAscii] using h
  have hv := Utf8.toNat_cases c
  simp only [String.utf8EncodeChar, show c.val.toNat = c.toNat from rfl] at hb
  generalize c.toNat = v at *
  rw [if_neg (by omega)] at hb
  split at hb
  · simp only [List.mem_cons, List.not_mem_nil, or_false] at hb
    rcases hb with rfl | rfl <;> exact isAscii_ofUInt8_ofNat (by omega) (by omega)
  split at hb
  · simp only [List.mem_cons, List.not_mem_nil, or_false] at hb
    rcases hb with rfl | rfl | rfl <;> exact isAscii_ofUInt8_ofNat (by omega) (by omega)
  · simp only [List.mem_cons, List.not_mem_nil, or_false] at hb
    rcases hb with rfl | rfl | rfl | rfl <;>
      exact isAscii_ofUInt8_ofNat (by omega) (by omega)

theorem utf8Size_of_isAscii {c : Char} (h : isAscii c = true) : c.utf8Size = 1 := by
  obtain ⟨b, hb, -⟩ := utf8EncodeChar_of_isAscii h
  rw [← String.length_utf8EncodeChar, hb, List.length_singleton]

theorem byteSize_cons_of_isAscii {c : Char} (h : isAscii c = true) (s : List Char) :
    byteSize (c :: s) = byteSize s + 1 := by
  rw [byteSize_cons, utf8Size_of_isAscii h, Nat.add_comm]

/-- The first byte of a character, as the character with its number. -/
def lead (c : Char) : Char := ((String.utf8EncodeChar c).head?.map Char.ofUInt8).getD c

theorem exists_utf8EncodeChar (c : Char) :
    ∃ b bytes, String.utf8EncodeChar c = b :: bytes ∧ Char.ofUInt8 b = lead c := by
  cases hc : String.utf8EncodeChar c with
  | nil =>
    have hlen := String.length_utf8EncodeChar c
    have := c.utf8Size_pos
    rw [hc, List.length_nil] at hlen
    omega
  | cons b bytes => exact ⟨b, bytes, rfl, by rw [lead, hc]; rfl⟩

theorem lead_of_isAscii {c : Char} (h : isAscii c = true) : lead c = c := by
  obtain ⟨b, hb, hc⟩ := utf8EncodeChar_of_isAscii h
  rw [lead, hb]
  exact hc

theorem isAscii_lead (c : Char) : isAscii (lead c) = isAscii c := by
  cases h : isAscii c with
  | true => rw [lead_of_isAscii h, h]
  | false =>
    obtain ⟨b, bytes, hc, hlead⟩ := exists_utf8EncodeChar c
    rw [← hlead]
    exact isAscii_of_mem_utf8EncodeChar h (hc ▸ List.mem_cons_self)

/-- A mark in the ASCII range is the first byte of no other character. -/
theorem lead_eq_iff {c mark : Char} (hmark : isAscii mark = true) : lead c = mark ↔ c = mark := by
  constructor
  · intro h
    have hc : isAscii c = true := by rw [← isAscii_lead, h, hmark]
    rw [← lead_of_isAscii hc, h]
  · rintro rfl
    exact lead_of_isAscii hmark

/-- A class of ASCII characters is told by the first byte. -/
theorem apply_lead {p : Char → Bool} (hp : ∀ c, p c = true → isAscii c = true) (c : Char) :
    p (lead c) = p c := by
  cases h : isAscii c with
  | true => rw [lead_of_isAscii h]
  | false =>
    have hwide : ∀ d, isAscii d = false → p d = false := fun d hd =>
      eq_false_of_ne_true fun htrue => by simp [hp d htrue] at hd
    rw [hwide c h, hwide (lead c) (by rw [isAscii_lead, h])]

theorem byteAt?_eq_none_iff {bytes : Bytes} {i : Nat} :
    byteAt? bytes i = none ↔ bytes.length ≤ i := by
  rw [byteAt?, Option.map_eq_none_iff, List.getElem?_eq_none_iff]

/-! ## Offsets -/

/-- At this offset the text goes on with these characters. -/
def At (text : List Char) (i : Nat) (s : List Char) : Prop :=
  ∃ front, text = front ++ s ∧ byteSize front = i

namespace At

variable {text s u : List Char} {i : Nat} {c : Char}

theorem start (text : List Char) : At text 0 text := ⟨[], rfl, rfl⟩

theorem append (h : At text i (u ++ s)) : At text (i + byteSize u) s := by
  obtain ⟨front, rfl, rfl⟩ := h
  exact ⟨front ++ u, by rw [List.append_assoc], byteSize_append front u⟩

theorem drop (h : At text i s) (n : Nat) : At text (i + byteSize (s.take n)) (s.drop n) :=
  append (by rwa [List.take_append_drop])

theorem cons (h : At text i (c :: s)) : At text (i + c.utf8Size) s := by
  simpa using append (u := [c]) h

theorem cons_of_isAscii (h : At text i (c :: s)) (hc : isAscii c = true) : At text (i + 1) s :=
  utf8Size_of_isAscii hc ▸ h.cons

/-- What stands at an offset ends with the text. -/
theorem add_byteSize (h : At text i s) : i + byteSize s = byteSize text := by
  obtain ⟨front, rfl, rfl⟩ := h
  rw [byteSize_append]

theorem utf8_eq (h : At text i s) : ∃ bytes, utf8 text = bytes ++ utf8 s ∧ bytes.length = i := by
  obtain ⟨front, rfl, rfl⟩ := h
  exact ⟨utf8 front, utf8_append front s, rfl⟩

theorem byteAt?_nil (h : At text i []) : byteAt? (utf8 text) i = none := by
  obtain ⟨bytes, hbytes, rfl⟩ := h.utf8_eq
  simp [byteAt?, hbytes]

theorem byteAt?_cons (h : At text i (c :: s)) : byteAt? (utf8 text) i = some (lead c) := by
  obtain ⟨bytes, hbytes, rfl⟩ := h.utf8_eq
  obtain ⟨b, more, hc, hlead⟩ := exists_utf8EncodeChar c
  simp [byteAt?, hbytes, hc, hlead]

theorem byteAt?_of_isAscii (h : At text i (c :: s)) (hc : isAscii c = true) :
    byteAt? (utf8 text) i = some c := by
  rw [h.byteAt?_cons, lead_of_isAscii hc]

/-- A mark stands at an offset if it is the first of the characters there. -/
theorem byteAt?_eq_some_iff (h : At text i s) {mark : Char} (hmark : isAscii mark = true) :
    byteAt? (utf8 text) i = some mark ↔ s.head? = some mark := by
  cases s with
  | nil => simp [h.byteAt?_nil]
  | cons c s => simp [h.byteAt?_cons, lead_eq_iff hmark]

/-- The bytes of a character behind its first one are outside of the ASCII range. -/
theorem byteAt?_inside (h : At text i (c :: s)) {k : Nat} (hpos : 0 < k) (hk : k < c.utf8Size) :
    ∃ d, byteAt? (utf8 text) (i + k) = some d ∧ isAscii d = false := by
  obtain ⟨bytes, hbytes, rfl⟩ := h.utf8_eq
  have hwide : isAscii c = false := eq_false_of_ne_true fun hc => by
    rw [utf8Size_of_isAscii hc] at hk
    omega
  have hlen : k < (String.utf8EncodeChar c).length := by rwa [String.length_utf8EncodeChar]
  refine ⟨Char.ofUInt8 (String.utf8EncodeChar c)[k], ?_,
    isAscii_of_mem_utf8EncodeChar hwide (List.getElem_mem hlen)⟩
  rw [byteAt?, hbytes, List.getElem?_append_right (Nat.le_add_right _ k), Nat.add_sub_cancel_left,
    utf8_cons, List.getElem?_append_left hlen, List.getElem?_eq_getElem hlen, Option.map_some]

/-- The last byte of a character is the character or outside of the ASCII range. -/
theorem byteAt?_last (h : At text i (c :: s)) :
    ∃ k d, c.utf8Size = k + 1 ∧ byteAt? (utf8 text) (i + k) = some d ∧
      (isAscii c = true ∧ d = c ∨ isAscii c = false ∧ isAscii d = false) := by
  cases hc : isAscii c with
  | true => exact ⟨0, c, utf8Size_of_isAscii hc, h.byteAt?_of_isAscii hc, .inl ⟨rfl, rfl⟩⟩
  | false =>
    have hpos := c.utf8Size_pos
    obtain ⟨k, hk⟩ := Nat.exists_eq_add_of_lt hpos
    rw [Nat.zero_add] at hk
    cases k with
    | zero => exact ⟨0, lead c, hk, h.byteAt?_cons, .inr ⟨rfl, by rw [isAscii_lead, hc]⟩⟩
    | succ k =>
      obtain ⟨d, hd, hwide⟩ := h.byteAt?_inside (Nat.succ_pos k) (by omega)
      exact ⟨k + 1, d, hk, hd, .inr ⟨rfl, hwide⟩⟩

/-- A function that goes one further at every byte outside of the ASCII range goes from
behind the first byte of a character to its end. -/
theorem skip {β : Type} {F : Nat → β} (h : At text i (c :: s))
    (hF : ∀ j d, byteAt? (utf8 text) j = some d → isAscii d = false → F j = F (j + 1)) :
    F (i + 1) = F (i + c.utf8Size) := by
  have hinside : ∀ k, k < c.utf8Size → F (i + 1) = F (i + k + 1) := by
    intro k
    induction k with
    | zero => exact fun _ => rfl
    | succ k ih =>
      intro hk
      obtain ⟨d, hd, hwide⟩ := h.byteAt?_inside (Nat.succ_pos k) hk
      rw [ih (by omega), Nat.add_assoc, hF _ d hd hwide, Nat.add_assoc]
  have hpos := c.utf8Size_pos
  rw [hinside (c.utf8Size - 1) (by omega)]
  congr 1
  omega

end At

/-! ## Parts of a text -/

theorem splitAt?_append (s t : List Char) : splitAt? (byteSize s) (s ++ t) = some (s, t) := by
  induction s with
  | nil => simp [splitAt?]
  | cons c s ih =>
    have hpos := c.utf8Size_pos
    rw [byteSize_cons, List.cons_append]
    obtain ⟨n, hn⟩ := Nat.exists_eq_add_of_lt (Nat.add_pos_left hpos (byteSize s))
    rw [hn, Nat.zero_add, splitAt?, if_pos (by omega),
      show n + 1 - c.utf8Size = byteSize s by omega, ih]
    rfl

theorem eq_of_splitAt? {n : Nat} {text s t : List Char} (h : splitAt? n text = some (s, t)) :
    text = s ++ t ∧ byteSize s = n := by
  fun_induction splitAt? n text generalizing s t with
  | case1 =>
    cases h
    exact ⟨rfl, rfl⟩
  | case2 => cases h
  | case3 n c text hle ih =>
    obtain ⟨⟨s', t'⟩, hs, he⟩ := Option.map_eq_some_iff.1 h
    obtain ⟨rfl, rfl⟩ := Prod.mk.inj he
    obtain ⟨rfl, hsize⟩ := ih hs
    exact ⟨rfl, by rw [byteSize_cons, hsize]; omega⟩
  | case4 => cases h

/-- A part can be taken between two ends of characters, and only there. -/
theorem slice?_eq_some_iff {text part : List Char} {start stop : Nat} :
    slice? text start stop = some part ↔
      ∃ rest, At text start (part ++ rest) ∧ start + byteSize part = stop := by
  constructor
  · intro h
    rw [slice?] at h
    split at h
    · next hle =>
      obtain ⟨⟨front, rest⟩, hsplit, h⟩ := Option.bind_eq_some_iff.1 h
      obtain ⟨⟨part', back⟩, hpart, h⟩ := Option.bind_eq_some_iff.1 h
      obtain rfl := Option.some.inj h
      obtain ⟨rfl, hstart⟩ := eq_of_splitAt? hsplit
      obtain ⟨rfl, hsize⟩ := eq_of_splitAt? hpart
      exact ⟨back, ⟨front, rfl, hstart⟩, by omega⟩
    · cases h
  · rintro ⟨rest, ⟨front, rfl, rfl⟩, rfl⟩
    rw [slice?, if_pos (Nat.le_add_right _ _), splitAt?_append]
    simp [splitAt?_append]

theorem At.slice?_append {text u s : List Char} {i : Nat} (h : At text i (u ++ s)) :
    slice? text i (i + byteSize u) = some u :=
  slice?_eq_some_iff.2 ⟨s, h, rfl⟩

end ByteScan

end FlashStrings
