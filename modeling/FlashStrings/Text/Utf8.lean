/-!
# UTF-8

Texts as bytes and back.  `Utf8.units` reads bytes one by one and gives a
character for every well-formed sequence and nothing for every broken one.  A
broken sequence ends before the first byte that rules it out, and that byte may
begin the next one.

`decode?` refuses bytes with a broken sequence, `decodeLossy` puts U+FFFD in its
place.
-/

namespace FlashStrings

/-- Raw bytes, as files hold them. -/
abbrev Bytes := List UInt8

namespace Utf8

/-- The bytes of a text. -/
def encode (text : String) : Bytes := text.toList.flatMap String.utf8EncodeChar

/-- What a reader of bytes still owes to a sequence that has begun. -/
structure Pending where
  /-- The number of bytes that are missing. -/
  owed : Nat
  /-- The least value of the next byte. -/
  least : Nat
  /-- The greatest value of the next byte. -/
  greatest : Nat
  /-- The value of the bits read so far. -/
  bits : Nat
  deriving DecidableEq, Repr

/-- Read the first byte of a sequence: what is complete, and what is owed. -/
def start (b : Nat) : List (Option Char) × Option Pending :=
  if b < 0x80 then ([some (Char.ofNat b)], none)
  else if b < 0xc2 then ([none], none)
  else if b < 0xe0 then ([], some ⟨1, 0x80, 0xbf, b % 0x20⟩)
  else if b < 0xf0 then
    ([], some ⟨2, if b = 0xe0 then 0xa0 else 0x80, if b = 0xed then 0x9f else 0xbf, b % 0x10⟩)
  else if b < 0xf5 then
    ([], some ⟨3, if b = 0xf0 then 0x90 else 0x80, if b = 0xf4 then 0x8f else 0xbf, b % 0x08⟩)
  else ([none], none)

/-- Read one more byte: what it completes, and what is owed after it. -/
def feed (pending : Option Pending) (b : Nat) : List (Option Char) × Option Pending :=
  match pending with
  | none => start b
  | some p =>
    if p.least ≤ b ∧ b ≤ p.greatest then
      let bits := p.bits * 0x40 + b % 0x40
      if p.owed ≤ 1 then ([some (Char.ofNat bits)], none)
      else ([], some ⟨p.owed - 1, 0x80, 0xbf, bits⟩)
    else (none :: (start b).1, (start b).2)

/-- The characters and broken sequences of bytes, in order.  `pending` is the
sequence that has begun. -/
def units (pending : Option Pending) : Bytes → List (Option Char)
  | [] => pending.toList.map fun _ => none
  | b :: bytes => (feed pending b.toNat).1 ++ units (feed pending b.toNat).2 bytes

/-- The text of well-formed bytes. -/
def decode? (bytes : Bytes) : Option String :=
  ((units none bytes).mapM id).map String.ofList

/-- The text of any bytes, with U+FFFD for every broken sequence. -/
def decodeLossy (bytes : Bytes) : String :=
  String.ofList ((units none bytes).map (·.getD '\uFFFD'))

example : decode? [0xc2, 0xb0, 0x43] = some "°C" := by decide +kernel
example : decodeLossy [0xe2, 0x82, 0x41, 0xff] = "\uFFFDA\uFFFD" := by decide +kernel

end Utf8

end FlashStrings
