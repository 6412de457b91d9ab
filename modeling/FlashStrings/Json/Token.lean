import FlashStrings.Text.Class

/-!
# JSON tokens

The tokens of a JSON text.  `Token.read?` reads all tokens of a text, or nothing
when some part of it is no token.  Between tokens there may be spaces, tabs and
line breaks; there are no comments.

A string may hold any character but controls, and the escape sequences of the
format.  Two escapes that are a pair of surrogates stand for one character.
-/

namespace FlashStrings

namespace Json

/-- A token. -/
inductive Token where
  | openArray
  | closeArray
  | openObject
  | closeObject
  | comma
  | colon
  | null
  | bool (b : Bool)
  /-- A number; nothing for one that is no plain natural number. -/
  | num (n : Option Nat)
  /-- A text; nothing for one that is no sequence of characters. -/
  | text (s : Option String)
  deriving DecidableEq, Repr

/-- The value of a hexadecimal digit. -/
def hexValue (c : Char) : Nat :=
  if c.isDigit then c.toNat - '0'.toNat
  else if 'a' ≤ c then c.toNat - 'a'.toNat + 10
  else c.toNat - 'A'.toNat + 10

namespace Token

/-! ## Strings -/

/-- What stands for itself or for one character in a string, and the code units
of escapes. -/
inductive Unit16 where
  | char (c : Char)
  /-- A code unit written in hexadecimal. -/
  | unit (n : Nat)
  deriving DecidableEq, Repr

/-- The character of a short escape sequence. -/
def shortEscape? : Char → Option Char
  | '"' => some '"'
  | '\\' => some '\\'
  | '/' => some '/'
  | 'b' => some '\x08'
  | 'f' => some '\x0c'
  | 'n' => some '\n'
  | 'r' => some '\r'
  | 't' => some '\t'
  | _ => none

/-- The content of a string behind its opening quote, and the text behind its
closing quote. -/
def stringUnits? : List Char → Option (List Unit16 × List Char)
  | [] => none
  | '\\' :: 'u' :: a :: b :: c :: d :: s =>
    if [a, b, c, d].all isHexDigit then
      push (.unit ([a, b, c, d].foldl (fun n x => n * 16 + hexValue x) 0)) (stringUnits? s)
    else none
  | '\\' :: e :: s =>
    match shortEscape? e with
    | some c => push (.char c) (stringUnits? s)
    | none => none
  | c :: s =>
    if c = '"' then some ([], s)
    else if c = '\\' ∨ c.toNat < 0x20 then none
    else push (.char c) (stringUnits? s)
where
  /-- Put a unit in front of the content. -/
  push (u : Unit16) (read : Option (List Unit16 × List Char)) :
      Option (List Unit16 × List Char) :=
    read.map fun (us, rest) => (u :: us, rest)

/-- The characters of the content of a string.  Nothing when a surrogate has no
partner. -/
def characters? : List Unit16 → Option (List Char)
  | [] => some []
  | .char c :: us => (characters? us).map (c :: ·)
  | .unit n :: us =>
    if n < 0xd800 ∨ 0xdfff < n then (characters? us).map (Char.ofNat n :: ·)
    else
      match us with
      | .unit m :: us =>
        if n < 0xdc00 ∧ 0xdc00 ≤ m ∧ m ≤ 0xdfff then
          (characters? us).map
            (Char.ofNat (0x10000 + (n - 0xd800) * 0x400 + (m - 0xdc00)) :: ·)
        else none
      | _ => none

/-! ## Numbers -/

/-- The value of decimal digits. -/
def decimal (digits : List Char) : Nat :=
  digits.foldl (fun n c => n * 10 + (c.toNat - '0'.toNat)) 0

/-- Digits of which there has to be one: the digits and what follows them. -/
def digits? (s : List Char) : Option (List Char × List Char) :=
  let digits := s.takeWhile Char.isDigit
  if digits.isEmpty then none else some (digits, s.drop digits.length)

/-- What follows the fraction of a number, if there is one, and whether there
is. -/
def fraction? : List Char → Option (Bool × List Char)
  | '.' :: s => (digits? s).map fun (_, rest) => (true, rest)
  | s => some (false, s)

/-- What follows the exponent of a number, if there is one, and whether there
is. -/
def exponent? : List Char → Option (Bool × List Char)
  | c :: s =>
    if c = 'e' ∨ c = 'E' then
      let s := match s with
        | '+' :: s | '-' :: s => s
        | s => s
      (digits? s).map fun (_, rest) => (true, rest)
    else some (false, c :: s)
  | [] => some (false, [])

/-- A number without a sign and what follows it.  A leading zero stands alone. -/
def unsigned? (s : List Char) : Option (Option Nat × List Char) :=
  match digits? s with
  | none => none
  | some (digits, s) =>
    if digits.head? = some '0' ∧ digits.length > 1 then none
    else
      match fraction? s with
      | none => none
      | some (hasFraction, s) =>
        (exponent? s).map fun (hasExponent, rest) =>
          (if hasFraction || hasExponent then none else some (decimal digits), rest)

/-- A number and what follows it. -/
def number? : List Char → Option (Option Nat × List Char)
  | '-' :: s => (unsigned? s).map fun (_, rest) => (none, rest)
  | s => unsigned? s

/-! ## Tokens -/

/-- White space between tokens. -/
def isSpace (c : Char) : Bool := c == ' ' || c == '\t' || c == '\n' || c == '\r'

/-- A token and what follows it, for a text that begins with one. -/
def first? : List Char → Option (Token × List Char)
  | '[' :: s => some (.openArray, s)
  | ']' :: s => some (.closeArray, s)
  | '{' :: s => some (.openObject, s)
  | '}' :: s => some (.closeObject, s)
  | ',' :: s => some (.comma, s)
  | ':' :: s => some (.colon, s)
  | 'n' :: 'u' :: 'l' :: 'l' :: s => some (.null, s)
  | 't' :: 'r' :: 'u' :: 'e' :: s => some (.bool true, s)
  | 'f' :: 'a' :: 'l' :: 's' :: 'e' :: s => some (.bool false, s)
  | '"' :: s =>
    (stringUnits? s).map fun (us, rest) => (.text ((characters? us).map String.ofList), rest)
  | s => (number? s).map fun (n, rest) => (.num n, rest)

/-! ## A token takes characters -/

theorem length_stringUnits? {s rest : List Char} {us : List Unit16}
    (h : stringUnits? s = some (us, rest)) : rest.length < s.length := by
  fun_induction stringUnits? s generalizing us with
  | case1 => simp at h
  | case2 a b c d s _ ih =>
    obtain ⟨⟨vs, r⟩, hr, he⟩ := Option.map_eq_some_iff.1 h
    obtain ⟨-, rfl⟩ := Prod.mk.inj he
    have := ih hr
    simp only [List.length_cons]
    omega
  | case3 => simp at h
  | case4 e s _ c _ ih =>
    obtain ⟨⟨vs, r⟩, hr, he⟩ := Option.map_eq_some_iff.1 h
    obtain ⟨-, rfl⟩ := Prod.mk.inj he
    have := ih hr
    simp only [List.length_cons]
    omega
  | case5 => simp at h
  | case6 => simp_all
  | case7 => simp at h
  | case8 c s _ _ _ _ ih =>
    obtain ⟨⟨vs, r⟩, hr, he⟩ := Option.map_eq_some_iff.1 h
    obtain ⟨-, rfl⟩ := Prod.mk.inj he
    have := ih hr
    simp only [List.length_cons]
    omega

theorem length_digits? {s digits rest : List Char} (h : digits? s = some (digits, rest)) :
    rest.length < s.length := by
  unfold digits? at h
  dsimp only at h
  split at h
  · simp at h
  · next hne =>
    obtain ⟨rfl, rfl⟩ := Prod.mk.inj (Option.some.inj h)
    have hpos : 0 < (s.takeWhile Char.isDigit).length :=
      List.length_pos_iff.2 fun he => hne (by simp [he])
    have := (List.takeWhile_sublist (p := Char.isDigit) (l := s)).length_le
    rw [List.length_drop]
    omega

theorem length_fraction? {s rest : List Char} {b : Bool} (h : fraction? s = some (b, rest)) :
    rest.length ≤ s.length := by
  unfold fraction? at h
  split at h
  · obtain ⟨⟨ds, r⟩, hr, he⟩ := Option.map_eq_some_iff.1 h
    obtain ⟨-, rfl⟩ := Prod.mk.inj he
    have := length_digits? hr
    simp only [List.length_cons]
    omega
  · obtain ⟨-, rfl⟩ := Prod.mk.inj (Option.some.inj h)
    exact Nat.le_refl _

theorem length_exponent? {s rest : List Char} {b : Bool} (h : exponent? s = some (b, rest)) :
    rest.length ≤ s.length := by
  unfold exponent? at h
  split at h
  · next c s =>
    split at h
    · obtain ⟨⟨ds, r⟩, hr, he⟩ := Option.map_eq_some_iff.1 h
      obtain ⟨-, rfl⟩ := Prod.mk.inj he
      have := length_digits? hr
      split at this <;> simp only [List.length_cons] at * <;> omega
    · obtain ⟨-, rfl⟩ := Prod.mk.inj (Option.some.inj h)
      exact Nat.le_refl _
  · obtain ⟨-, rfl⟩ := Prod.mk.inj (Option.some.inj h)
    exact Nat.le_refl _

theorem length_unsigned? {s rest : List Char} {n : Option Nat}
    (h : unsigned? s = some (n, rest)) : rest.length < s.length := by
  unfold unsigned? at h
  split at h
  · simp at h
  · next h1 =>
    split at h
    · simp at h
    · split at h
      · simp at h
      · next h2 =>
        obtain ⟨⟨e, r⟩, h3, he⟩ := Option.map_eq_some_iff.1 h
        obtain ⟨-, rfl⟩ := Prod.mk.inj he
        have h1 := length_digits? h1
        have h2 := length_fraction? h2
        have h3 := length_exponent? h3
        omega

theorem length_number? {s rest : List Char} {n : Option Nat} (h : number? s = some (n, rest)) :
    rest.length < s.length := by
  unfold number? at h
  split at h
  · obtain ⟨⟨m, r⟩, hr, he⟩ := Option.map_eq_some_iff.1 h
    obtain ⟨-, rfl⟩ := Prod.mk.inj he
    have := length_unsigned? hr
    simp only [List.length_cons]
    omega
  · exact length_unsigned? h

theorem length_first? {s rest : List Char} {t : Token} (h : first? s = some (t, rest)) :
    rest.length < s.length := by
  unfold first? at h
  split at h
  case h_10 =>
    obtain ⟨⟨us, r⟩, hr, he⟩ := Option.map_eq_some_iff.1 h
    obtain ⟨-, rfl⟩ := Prod.mk.inj he
    have := length_stringUnits? hr
    simp only [List.length_cons]
    omega
  case h_11 =>
    obtain ⟨⟨n, r⟩, hr, he⟩ := Option.map_eq_some_iff.1 h
    obtain ⟨-, rfl⟩ := Prod.mk.inj he
    exact length_number? hr
  all_goals
    obtain ⟨-, rfl⟩ := Prod.mk.inj (Option.some.inj h)
    simp only [List.length_cons]
    omega

/-! ## All tokens -/

/-- The tokens of a text behind those in `found`, which come last one first. -/
def read? (found : List Token) : List Char → Option (List Token)
  | [] => some found.reverse
  | c :: s =>
    if isSpace c then read? found s
    else
      match h : first? (c :: s) with
      | some (t, rest) =>
        have := length_first? h
        read? (t :: found) rest
      | none => none
termination_by s => s.length
decreasing_by
  all_goals
    simp only [List.length_cons] at *
    omega

end Token

end Json

end FlashStrings
