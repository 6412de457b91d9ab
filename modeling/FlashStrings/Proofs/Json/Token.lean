import FlashStrings.Json.Token
import FlashStrings.Json.Write

/-!
# Tokens of written JSON

What the writer of JSON writes for a text and for a number is read as one token
(`Token.first?_quote`, `Token.first?_toDigits`).  A number is read to its end
only if nothing follows that could be a part of it; `Token.EndsNumber` says so.
-/

namespace FlashStrings

namespace Json

/-! ## Hexadecimal digits -/

theorem hexDigit_spec {n : Nat} (h : n < 16) :
    isHexDigit (hexDigit n) = true ∧ hexValue (hexDigit n) = n := by
  have hall : ∀ n < 16, isHexDigit (hexDigit n) = true ∧ hexValue (hexDigit n) = n := by decide
  exact hall n h

namespace Token

/-! ## Strings -/

/-- What a character of a text is read as. -/
def writtenUnit (c : Char) : Unit16 :=
  if c.toNat < 0x20 ∧ c ∉ ['\x08', '\x0c', '\n', '\r', '\t'] then .unit c.toNat else .char c

theorem stringUnits?_short {e c : Char} (h : shortEscape? e = some c) (s : List Char) :
    stringUnits? ('\\' :: e :: s) = stringUnits?.push (.char c) (stringUnits? s) := by
  have hu : e ≠ 'u' := by
    rintro rfl
    simp [shortEscape?] at h
  rw [stringUnits?, h]
  rintro _ _ _ _ _ rfl
  exact absurd rfl hu

theorem stringUnits?_plain {c : Char} (hq : c ≠ '"') (hb : c ≠ '\\') (hc : ¬c.toNat < 0x20)
    (s : List Char) :
    stringUnits? (c :: s) = stringUnits?.push (.char c) (stringUnits? s) := by
  rw [stringUnits?, if_neg hq, if_neg (by simp [hb, hc])]
  · rintro _ _ _ _ _ rfl
    exact absurd rfl hb
  · rintro _ _ rfl
    exact absurd rfl hb

theorem stringUnits?_control {c : Char} (hc : c.toNat < 0x20) (s : List Char) :
    stringUnits? (['\\', 'u', '0', '0'] ++ hexByte c.toNat.toUInt8 ++ s) =
      stringUnits?.push (.unit c.toNat) (stringUnits? s) := by
  have hn : c.toNat.toUInt8.toNat = c.toNat := by
    rw [Nat.toUInt8, UInt8.toNat_ofNat']
    omega
  obtain ⟨hh, hv⟩ := hexDigit_spec (n := c.toNat / 16) (by omega)
  obtain ⟨lh, lv⟩ := hexDigit_spec (n := c.toNat % 16) (by omega)
  have h0 : isHexDigit '0' = true ∧ hexValue '0' = 0 := by decide
  simp only [hexByte, hn, List.cons_append, List.nil_append, stringUnits?]
  rw [if_pos (by simp [hh, lh, h0.1])]
  simp only [List.foldl_cons, List.foldl_nil, h0.2, hv, lv]
  rw [show (((0 * 16 + 0) * 16 + 0) * 16 + c.toNat / 16) * 16 + c.toNat % 16 = c.toNat by omega]

/-- A written character is read as one unit. -/
theorem stringUnits?_escaped (c : Char) (s : List Char) :
    stringUnits? (escaped c ++ s) = stringUnits?.push (writtenUnit c) (stringUnits? s) := by
  unfold escaped
  split
  case h_8 h1 h2 h3 h4 h5 h6 h7 =>
    split
    · next hc =>
      rw [writtenUnit, if_pos ⟨hc, by simp_all⟩]
      exact stringUnits?_control hc s
    · next hc =>
      rw [writtenUnit, if_neg fun h => hc h.1]
      exact stringUnits?_plain h1 h2 hc s
  all_goals exact stringUnits?_short rfl s

theorem stringUnits?_flatMap_escaped (s rest : List Char) :
    stringUnits? (s.flatMap escaped ++ '"' :: rest) = some (s.map writtenUnit, rest) := by
  induction s with
  | nil => simp [stringUnits?]
  | cons c s ih =>
    rw [List.flatMap_cons, List.append_assoc, stringUnits?_escaped, ih]
    rfl

theorem characters?_writtenUnit (c : Char) (us : List Unit16) :
    characters? (writtenUnit c :: us) = (characters? us).map (c :: ·) := by
  unfold writtenUnit
  split
  · next h =>
    have hlow : c.toNat < 0xd800 ∨ 0xdfff < c.toNat := .inl (by omega)
    cases us with
    | nil => simp only [characters?, if_pos hlow, Char.ofNat_toNat]
    | cons u us =>
      cases u with
      | char d => simp only [characters?, if_pos hlow, Char.ofNat_toNat]
      | unit m => simp only [characters?, if_pos hlow, Char.ofNat_toNat]
  · rfl

theorem characters?_map_writtenUnit (s : List Char) :
    characters? (s.map writtenUnit) = some s := by
  induction s with
  | nil => rfl
  | cons c s ih => rw [List.map_cons, characters?_writtenUnit, ih, Option.map_some]

/-- A written text is read as one token. -/
theorem first?_quote (s : String) (rest : List Char) :
    first? (quote s ++ rest) = some (.text (some s), rest) := by
  simp only [quote, List.cons_append, List.append_assoc, List.nil_append, first?]
  rw [stringUnits?_flatMap_escaped, Option.map_some, characters?_map_writtenUnit,
    Option.map_some, String.ofList_toList]

/-! ## Numbers -/

/-- Nothing stands at the start of a text that could be a part of a number. -/
def EndsNumber (s : List Char) : Prop :=
  ∀ c, s.head? = some c → c.isDigit = false ∧ c ≠ '.' ∧ c ≠ 'e' ∧ c ≠ 'E'

theorem endsNumber_cons {c : Char} (h : c.isDigit = false ∧ c ≠ '.' ∧ c ≠ 'e' ∧ c ≠ 'E')
    (s : List Char) : EndsNumber (c :: s) := by
  rintro d hd
  obtain rfl := Option.some.inj hd
  exact h

theorem isDigit_of_mem_toDigits {c : Char} {n : Nat} (h : c ∈ Nat.toDigits 10 n) :
    c.isDigit = true :=
  Nat.isDigit_of_mem_toDigits (by decide) (by decide) h

theorem digits?_append {digits rest : List Char} (hne : digits ≠ [])
    (hd : ∀ c ∈ digits, c.isDigit = true) (hr : EndsNumber rest) :
    digits? (digits ++ rest) = some (digits, rest) := by
  have htake : (digits ++ rest).takeWhile Char.isDigit = digits := by
    rw [List.takeWhile_append_of_pos hd]
    cases rest with
    | nil => simp
    | cons c s => simp [(hr c rfl).1]
  rw [digits?, htake, if_neg (by simpa using hne), List.drop_left]

theorem fraction?_of_endsNumber {s : List Char} (h : EndsNumber s) :
    fraction? s = some (false, s) := by
  unfold fraction?
  split
  · exact absurd rfl (h '.' rfl).2.1
  · rfl

theorem exponent?_of_endsNumber {s : List Char} (h : EndsNumber s) :
    exponent? s = some (false, s) := by
  cases s with
  | nil => rfl
  | cons c s =>
    have hc : ¬(c = 'e' ∨ c = 'E') := by simp [(h c rfl).2.2]
    unfold exponent?
    exact if_neg hc

/-- The first digit of a number with more than one digit is not zero. -/
theorem head?_toDigits_ne_zero (n : Nat) (h : 10 ≤ n) :
    (Nat.toDigits 10 n).head? ≠ some '0' := by
  induction n using Nat.strongRecOn with
  | ind n ih =>
    rw [Nat.toDigits_of_base_le (by decide) h, List.head?_append]
    rw [Option.or_of_isSome (List.isSome_head?.2 Nat.toDigits_ne_nil)]
    by_cases hq : 10 ≤ n / 10
    · exact ih (n / 10) (by omega) hq
    · have hlt : n / 10 < 10 := by omega
      have hall : ∀ d < 10, 0 < d → d.digitChar ≠ '0' := by decide
      rw [Nat.toDigits_of_lt_base hlt]
      simpa using hall (n / 10) hlt (by omega)

theorem decimal_toDigits (n : Nat) : decimal (Nat.toDigits 10 n) = n := by
  have h : decimal (Nat.toDigits 10 n) = Nat.ofDigitChars 10 (Nat.toDigits 10 n) 0 := by
    simp only [decimal, Nat.ofDigitChars, Nat.mul_comm 10]
  rw [h, Nat.ofDigitChars_ten_toDigits]

theorem unsigned?_toDigits (n : Nat) {rest : List Char} (h : EndsNumber rest) :
    unsigned? (Nat.toDigits 10 n ++ rest) = some (some n, rest) := by
  have hz : ¬((Nat.toDigits 10 n).head? = some '0' ∧ (Nat.toDigits 10 n).length > 1) := by
    rintro ⟨hhead, hlen⟩
    by_cases hn : 10 ≤ n
    · exact head?_toDigits_ne_zero n hn hhead
    · rw [Nat.toDigits_of_lt_base (by omega)] at hlen
      simp at hlen
  rw [unsigned?, digits?_append Nat.toDigits_ne_nil (fun c => isDigit_of_mem_toDigits) h]
  simp only [hz, if_false, fraction?_of_endsNumber h, exponent?_of_endsNumber h, Option.map_some,
    Bool.or_self, decimal_toDigits]
  rfl

/-- A written number is read as one token. -/
theorem first?_toDigits (n : Nat) {rest : List Char} (h : EndsNumber rest) :
    first? (Nat.toDigits 10 n ++ rest) = some (.num (some n), rest) := by
  have hu := unsigned?_toDigits n h
  obtain ⟨c, s, hs⟩ := List.exists_cons_of_ne_nil (Nat.toDigits_ne_nil (n := n) (b := 10))
  have hc : c.isDigit = true := isDigit_of_mem_toDigits (n := n) (by simp [hs])
  rw [hs, List.cons_append] at hu ⊢
  have hm : number? (c :: (s ++ rest)) = some (some n, rest) := by
    unfold number?
    split
    · next heq =>
      obtain ⟨rfl, -⟩ := List.cons.inj heq
      simp at hc
    · exact hu
  unfold first?
  split
  case h_11 => rw [hm, Option.map_some]
  all_goals
    next heq =>
    obtain ⟨rfl, -⟩ := List.cons.inj heq
    simp at hc

end Token

end Json

end FlashStrings
