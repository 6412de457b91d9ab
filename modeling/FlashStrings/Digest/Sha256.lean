import FlashStrings.Literal.Initializer
import FlashStrings.Text.Utf8

/-!
# SHA-256

The hash function of FIPS 180-4 on bytes.  The message is padded to blocks of
sixteen words; each block is stretched to sixty-four words and mixed into eight
chaining words in as many rounds.
-/

namespace FlashStrings

namespace Sha256

/-- Rotation to the right. -/
def rotate (x : UInt32) (n : UInt32) : UInt32 := (x >>> n) ||| (x <<< (32 - n))

/-- The constants of the rounds. -/
def constants : List UInt32 := [
  0x428a2f98, 0x71374491, 0xb5c0fbcf, 0xe9b5dba5, 0x3956c25b, 0x59f111f1, 0x923f82a4, 0xab1c5ed5,
  0xd807aa98, 0x12835b01, 0x243185be, 0x550c7dc3, 0x72be5d74, 0x80deb1fe, 0x9bdc06a7, 0xc19bf174,
  0xe49b69c1, 0xefbe4786, 0x0fc19dc6, 0x240ca1cc, 0x2de92c6f, 0x4a7484aa, 0x5cb0a9dc, 0x76f988da,
  0x983e5152, 0xa831c66d, 0xb00327c8, 0xbf597fc7, 0xc6e00bf3, 0xd5a79147, 0x06ca6351, 0x14292967,
  0x27b70a85, 0x2e1b2138, 0x4d2c6dfc, 0x53380d13, 0x650a7354, 0x766a0abb, 0x81c2c92e, 0x92722c85,
  0xa2bfe8a1, 0xa81a664b, 0xc24b8b70, 0xc76c51a3, 0xd192e819, 0xd6990624, 0xf40e3585, 0x106aa070,
  0x19a4c116, 0x1e376c08, 0x2748774c, 0x34b0bcb5, 0x391c0cb3, 0x4ed8aa4a, 0x5b9cca4f, 0x682e6ff3,
  0x748f82ee, 0x78a5636f, 0x84c87814, 0x8cc70208, 0x90befffa, 0xa4506ceb, 0xbef9a3f7, 0xc67178f2]

/-- The eight chaining words. -/
structure Chain where
  a : UInt32
  b : UInt32
  c : UInt32
  d : UInt32
  e : UInt32
  f : UInt32
  g : UInt32
  h : UInt32
  deriving DecidableEq, Repr

/-- The chaining words before the first block. -/
def Chain.start : Chain :=
  ⟨0x6a09e667, 0xbb67ae85, 0x3c6ef372, 0xa54ff53a, 0x510e527f, 0x9b05688c, 0x1f83d9ab, 0x5be0cd19⟩

/-- The bytes of a word, most significant first. -/
def wordBytes (w : UInt32) : Bytes :=
  [(w >>> 24).toUInt8, (w >>> 16).toUInt8, (w >>> 8).toUInt8, w.toUInt8]

/-- The bytes of the chaining words. -/
def Chain.bytes (s : Chain) : Bytes :=
  [s.a, s.b, s.c, s.d, s.e, s.f, s.g, s.h].flatMap wordBytes

/-- The words of a message; bytes that fill no word are dropped. -/
def words : Bytes → List UInt32
  | a :: b :: c :: d :: rest =>
    ((a.toUInt32 <<< 24) ||| (b.toUInt32 <<< 16) ||| (c.toUInt32 <<< 8) ||| d.toUInt32) ::
      words rest
  | _ => []

/-- The message with a one bit, zeros and its length in bits, in whole blocks. -/
def pad (message : Bytes) : Bytes :=
  let bits := (8 * message.length).toUInt64
  let zeros : Bytes := List.replicate ((119 - message.length % 64) % 64) 0
  message ++ 0x80 :: zeros ++ wordBytes (bits >>> 32).toUInt32 ++ wordBytes bits.toUInt32

/-- One more word of the schedule. -/
def stretch (w : Array UInt32) : Array UInt32 :=
  let back (n : Nat) : UInt32 := w.getD (w.size - n) 0
  let x := back 15
  let y := back 2
  let small0 := rotate x 7 ^^^ rotate x 18 ^^^ (x >>> 3)
  let small1 := rotate y 17 ^^^ rotate y 19 ^^^ (y >>> 10)
  w.push (back 16 + small0 + back 7 + small1)

/-- The sixty-four words made of a block. -/
def schedule (block : List UInt32) : List UInt32 :=
  ((List.range 48).foldl (fun w _ => stretch w) block.toArray).toList

/-- One round, with a word of the schedule and its constant. -/
def round (s : Chain) (w k : UInt32) : Chain :=
  let large1 := rotate s.e 6 ^^^ rotate s.e 11 ^^^ rotate s.e 25
  let choice := (s.e &&& s.f) ^^^ (~~~s.e &&& s.g)
  let t1 := s.h + large1 + choice + k + w
  let large0 := rotate s.a 2 ^^^ rotate s.a 13 ^^^ rotate s.a 22
  let majority := (s.a &&& s.b) ^^^ (s.a &&& s.c) ^^^ (s.b &&& s.c)
  ⟨t1 + large0 + majority, s.a, s.b, s.c, s.d + t1, s.e, s.f, s.g⟩

/-- Mix a block into the chaining words. -/
def compress (s : Chain) (block : List UInt32) : Chain :=
  let t := ((schedule block).zip constants).foldl (fun t (w, k) => round t w k) s
  ⟨s.a + t.a, s.b + t.b, s.c + t.c, s.d + t.d, s.e + t.e, s.f + t.f, s.g + t.g, s.h + t.h⟩

/-- Mix the first `count` blocks of the words. -/
def absorb (s : Chain) (ws : List UInt32) : (count : Nat) → Chain
  | 0 => s
  | count + 1 => absorb (compress s (ws.take 16)) (ws.drop 16) count

end Sha256

/-- The digest of a message. -/
def sha256 (message : Bytes) : Bytes :=
  let ws := Sha256.words (Sha256.pad message)
  (Sha256.absorb .start ws (ws.length / 16)).bytes

/-- The digest of a message as hexadecimal text. -/
def sha256Hex (message : Bytes) : String :=
  String.ofList ((sha256 message).flatMap hexByte)

end FlashStrings
