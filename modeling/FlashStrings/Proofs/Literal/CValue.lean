import FlashStrings.Text.Class
import FlashStrings.Text.Utf8

/-!
# The value of C string literals

A compiler reads a sequence of adjacent string literals as one array of bytes.
It takes a hexadecimal escape to be as long as its digits go, an octal escape to
have up to three digits, and `\u` and `\U` to have exactly four and eight.  A
character outside of ASCII stands for its UTF-8 bytes, an unknown escape for the
escaped character.  Literals are put together after their escapes are read, so
the quote that ends a literal also ends an escape.

`CLiteral.step` is such a reader, one character at a time, and `CLiteral.value?`
is the value of a whole text.  It is nothing where the text is no sequence of
complete literals with white space in between.
-/

namespace FlashStrings

namespace CLiteral

/-- What a reader of C literals has seen. -/
inductive State where
  /-- Outside of a literal. -/
  | between
  /-- In a literal, behind a character or a complete escape. -/
  | inside
  /-- Behind a backslash. -/
  | begun
  /-- Behind `\x`; a digit has to follow. -/
  | hexFirst
  /-- Behind the digits of a hexadecimal escape of this value. -/
  | hex (n : Nat)
  /-- Behind the digits of an octal escape of this value; `more` are still
  allowed after the next one. -/
  | octal (more : Bool) (n : Nat)
  /-- Behind some digits of a universal escape; one more and `missing` others
  have to follow. -/
  | universal (missing n : Nat)
  deriving DecidableEq, Repr

/-- White space of the C language. -/
def isSpace (c : Char) : Bool :=
  c == ' ' || c == '\t' || c == '\n' || c == '\x0b' || c == '\x0c' || c == '\r'

/-- The value of a hexadecimal or octal digit. -/
def digitValue (c : Char) : Nat :=
  if c.isDigit then c.toNat - '0'.toNat
  else if 'a' ≤ c then c.toNat - 'a'.toNat + 10 else c.toNat - 'A'.toNat + 10

/-- The bytes of an escape without digits. -/
def simpleEscape : Char → Bytes
  | 'a' => [7]
  | 'b' => [8]
  | 't' => [9]
  | 'n' => [10]
  | 'v' => [11]
  | 'f' => [12]
  | 'r' => [13]
  | c => String.utf8EncodeChar c

/-- Read a character behind a backslash. -/
def readEscape (c : Char) : Option (State × Bytes) :=
  if c = 'x' then some (.hexFirst, [])
  else if c = 'u' then some (.universal 3 0, [])
  else if c = 'U' then some (.universal 7 0, [])
  else if isOctDigit c then some (.octal true (digitValue c), [])
  else if c = '\n' then none
  else some (.inside, simpleEscape c)

/-- Read a character that is no part of an escape. -/
def readPlain (c : Char) : Option (State × Bytes) :=
  if c = '"' then some (.between, [])
  else if c = '\\' then some (.begun, [])
  else if c = '\n' then none
  else some (.inside, String.utf8EncodeChar c)

/-- Bytes in front of what a reader gives. -/
def emit (out : Bytes) (r : State × Bytes) : State × Bytes := (r.1, out ++ r.2)

/-- The byte of an escape that may still get a digit. -/
def State.pending : State → Bytes
  | .hex n | .octal _ n => [n.toUInt8]
  | _ => []

/-- Read one character: the state behind it and the bytes that are complete. -/
def step (state : State) (c : Char) : Option (State × Bytes) :=
  match state with
  | .between =>
    if c = '"' then some (.inside, []) else if isSpace c then some (.between, []) else none
  | .inside => readPlain c
  | .begun => readEscape c
  | .hexFirst => if isHexDigit c then some (.hex (digitValue c), []) else none
  | .hex n =>
    if isHexDigit c then some (.hex (16 * n + digitValue c), [])
    else (readPlain c).map (emit [n.toUInt8])
  | .octal more n =>
    if isOctDigit c then
      let n := 8 * n + digitValue c
      if more then some (.octal false n, []) else some (.inside, [n.toUInt8])
    else (readPlain c).map (emit [n.toUInt8])
  | .universal missing n =>
    if isHexDigit c then
      let n := 16 * n + digitValue c
      match missing with
      | 0 => some (.inside, String.utf8EncodeChar (Char.ofNat n))
      | missing + 1 => some (.universal missing n, [])
    else none

/-- Read a text: the state behind it and the bytes that are complete. -/
def run (state : State) : List Char → Option (State × Bytes)
  | [] => some (state, [])
  | c :: s => (step state c).bind fun r => (run r.1 s).map (emit r.2)

/-- The bytes of a sequence of literals. -/
def value? (s : List Char) : Option Bytes :=
  match run .between s with
  | some (.between, out) => some out
  | _ => none

/-- A content between double quotes. -/
def quoted (content : List Char) : List Char := '"' :: content ++ ['"']

/-! ## Runs -/

theorem emit_append (out out' : Bytes) (r : State × Bytes) :
    emit (out ++ out') r = emit out (emit out' r) := by
  simp [emit]

theorem map_emit_nil (r : Option (State × Bytes)) : r.map (emit []) = r := by
  cases r <;> rfl

theorem map_emit_emit (out out' : Bytes) (r : Option (State × Bytes)) :
    (r.map (emit out')).map (emit out) = r.map (emit (out ++ out')) := by
  cases r with
  | none => rfl
  | some r => simp only [Option.map_some, emit_append]

theorem run_cons (state : State) (c : Char) (s : List Char) :
    run state (c :: s) = (step state c).bind fun r => (run r.1 s).map (emit r.2) := rfl

theorem run_append (state : State) (s t : List Char) :
    run state (s ++ t) = (run state s).bind fun r => (run r.1 t).map (emit r.2) := by
  induction s generalizing state with
  | nil => simp [run, map_emit_nil]
  | cons c s ih =>
    rw [List.cons_append, run_cons, run_cons]
    cases step state c with
    | none => rfl
    | some r =>
      simp only [Option.bind_some, ih]
      cases run r.1 s with
      | none => rfl
      | some r' => simp only [Option.bind_some, Option.map_some, map_emit_emit, emit]

/-- The literals `"\x4"` and `"1"` are two bytes, and the literal `"\x41"` is one. -/
example : value? "\"\\x4\" \"1\"".toList = some [4, 0x31] ∧
    value? "\"\\x41\"".toList = some [0x41] := by decide +kernel

end CLiteral

end FlashStrings
