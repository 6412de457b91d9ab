import FlashStrings.ByteScan.Split
import FlashStrings.Invocation.Arguments

/-!
# Reading arguments by characters

The reading of `Invocation/Arguments` on the text itself, without pieces.  A literal is
stepped over where it is met, so each part of the reading looks for the closing quotes on
its own: splitting at the commas (`ByteScan/Split`), looking for a colon, looking for the
partner of a parenthesis and taking the content of a literal.

Splitting comes first and refuses an unclosed literal.  Where a later part meets one in
spite of that, it is noted: the search for a colon or for a parenthesis then ends as if
there were none, and a value is refused.  There is no reading where the text cannot be
split because its depth does not fit.

Below 2^31 parentheses both forms read the same, and nothing is ever noted
(`Proofs/CharScan/Arguments`).
-/

namespace FlashStrings

namespace CharScan

/-- An unclosed literal that is met behind the splitting. -/
inductive OpenQuote where
  /-- In the search for the colon of a label. -/
  | label
  /-- In the search for the partner of a parenthesis. -/
  | parentheses
  /-- At a literal of a value. -/
  | value
  deriving DecidableEq, Repr

/-- A reading, with the unclosed literals that it has met. -/
abbrev Reader := EStateM ArgumentError (List OpenQuote)

namespace Reader

/-- A result without notes. -/
def ofExcept {α : Type} : Except ArgumentError α → Reader α
  | .ok a => pure a
  | .error e => throw e

/-- Note an unclosed literal. -/
def note (place : OpenQuote) : Reader Unit := modify (place :: ·)

end Reader

/-! ## Literals -/

/-- The number of characters behind an opening quote `q` through the closing one. -/
def closing? (q : Char) : List Char → Option Nat
  | [] => none
  | ['\\'] => none
  | '\\' :: _ :: s => (closing? q s).map (· + 2)
  | c :: s =>
    if c = '\n' then none
    else if c = q then some 1
    else (closing? q s).map (· + 1)

/-- The index of the double quote that closes a literal.  `escaped` says that a backslash
stands right before. -/
def quoteIndex? (escaped : Bool) : List Char → Option Nat
  | [] => none
  | c :: s =>
    if escaped then (quoteIndex? false s).map (· + 1)
    else if c = '\\' then (quoteIndex? true s).map (· + 1)
    else if c = '"' then some 0
    else if c = '\n' then none
    else (quoteIndex? false s).map (· + 1)

/-! ## Marks outside of literals -/

/-- The index of the first `mark` outside of literals and parentheses, from `i` on. -/
def indexOf? (mark : Char) (depth i : Nat) : List Char → Reader (Option Nat)
  | [] => return none
  | c :: s =>
    if c = '"' ∨ c = '\'' then
      match closing? c s with
      | none => do
        Reader.note .label
        return none
      | some n => indexOf? mark depth (i + 1 + n) (s.drop n)
    else if c = '(' then indexOf? mark (depth + 1) (i + 1) s
    else if c = ')' then indexOf? mark (depth - 1) (i + 1) s
    else if c = mark ∧ depth = 0 then return some i
    else indexOf? mark depth (i + 1) s
termination_by s => s.length
decreasing_by all_goals simp only [List.length_drop, List.length_cons]; omega

/-- Whether the parenthesis that brings the depth back to zero is the last character. -/
def wrapsWhole (depth : Nat) : List Char → Reader Bool
  | [] => return false
  | c :: s =>
    if c = '"' ∨ c = '\'' then
      match closing? c s with
      | none => do
        Reader.note .parentheses
        return false
      | some n => wrapsWhole depth (s.drop n)
    else if c = '(' then wrapsWhole (depth + 1) s
    else if c = ')' then
      if depth - 1 = 0 then return s.isEmpty else wrapsWhole (depth - 1) s
    else wrapsWhole depth s
termination_by s => s.length
decreasing_by all_goals simp only [List.length_drop, List.length_cons]; omega

theorem length_strip {s : List Char} (h : s ≠ []) :
    (trim s.tail.dropLast).length < s.length := by
  have htrim : (trim s.tail.dropLast).length ≤ s.tail.dropLast.length :=
    length_trimWhile_le isBlank s.tail.dropLast
  have hpos := List.length_pos_iff.2 h
  simp only [List.length_dropLast, List.length_tail] at htrim
  omega

/-- Take away the parentheses that wrap the whole text. -/
def strip (s : List Char) : Reader (List Char) := do
  if h : s.head? = some '(' ∧ s.getLast? = some ')' then
    if ← wrapsWhole 0 s then
      have : (trim s.tail.dropLast).length < s.length :=
        length_strip (List.ne_nil_of_mem (List.mem_of_mem_head? h.1))
      strip (trim s.tail.dropLast)
    else return s
  else return s
termination_by s.length

/-! ## Values -/

/-- A value: literals and string defines put together, or a bare word. -/
inductive Token where
  | text (content : String)
  | word (word : String)

/-- The characters of the name at the start of a text. -/
def nameOf (s : List Char) : List Char := s.takeWhile isNameChar

/-- What follows some characters and the blanks behind them. -/
def behind (width : Nat) (s : List Char) : List Char := (s.drop width).dropWhile isBlank

theorem length_behind_le (width : Nat) (s : List Char) :
    (behind width s).length ≤ s.length - width := by
  rw [← List.length_drop]
  exact length_dropWhile_le isBlank (s.drop width)

/-- Put the literals and string defines of a value behind `content`.  `whole` is shown
when they are something else. -/
def segments (defines : Defines) (whole content : List Char) (s : List Char) :
    Reader (List Char) :=
  match s with
  | [] => return content
  | c :: s =>
    if c = '"' then
      match quoteIndex? false s with
      | none => do
        Reader.note .value
        throw .unterminatedString
      | some n =>
        have := length_behind_le (n + 1) s
        segments defines whole (appendSegment content (s.take n)) (behind (n + 1) s)
    else
      match defines.get? (String.ofList (nameOf (c :: s))) with
      | some value =>
        if _ : 0 < (nameOf (c :: s)).length then
          have := length_behind_le (nameOf (c :: s)).length (c :: s)
          segments defines whole (appendSegment content value.toList)
            (behind (nameOf (c :: s)).length (c :: s))
        else throw (.invalidValue (String.ofList whole))
      | none => throw (.invalidValue (String.ofList whole))
termination_by s.length
decreasing_by all_goals simp only [List.length_cons] at *; omega

/-- Classify a value; nothing when it is empty. -/
def value (defines : Defines) (s : List Char) : Reader (Option Token) := do
  let s ← strip (trim s)
  let text := String.ofList s
  if s.isEmpty then return none
  else if isLocaleCode text then
    match defines.get? text with
    | some content => return some (.text content)
    | none => return some (.word text)
  else return some (.text (String.ofList (← segments defines s [] s)))

/-- Read the arguments behind the identifier. -/
def values (defines : Defines) (first : Bool) (read : Value) (pending : List String) :
    List (List Char) → Reader Value
  | [] =>
    if pending.isEmpty then return read
    else throw (.missingLocaleValue (Argument.readValues.joined pending))
  | arg :: args =>
    if arg.isEmpty then throw .emptyArgument
    else do
      match ← indexOf? ':' 0 0 arg with
      | some colon =>
        let codes := pending ++ (← Reader.ofExcept (Argument.localeCodes (arg.take colon)))
        match ← value defines (arg.drop (colon + 1)) with
        | some (.text content) =>
          let read ← Reader.ofExcept (codes.foldlM (fun v code => v.assign code content) read)
          values defines false read [] args
        | some (.word word) => throw (.invalidValue word)
        | none => throw (.missingLocaleValue (Argument.readValues.joined codes))
      | none =>
        match ← value defines arg with
        | some (.text content) =>
          if first then values defines false { read with fallback := some content } pending args
          else throw (.unexpectedValue (String.ofList arg))
        | some (.word word) =>
          if first then throw (.invalidValue word)
          else if isLocaleCode word then values defines false read (pending ++ [word]) args
          else throw (.invalidLocaleCode word)
        | none => throw .emptyArgument

/-- The value that the arguments behind the identifier give. -/
def readValue (defines : Defines) (args : List (List Char)) : Reader Value := do
  if args = [[]] then return {}
  else return (← values defines true {} [] args).normalizeWildcard

/-- Read the parts of the text between the parentheses of an invocation. -/
def readParts (defines : Defines) (parts : List String) : Reader Invocation := do
  let args := parts.map fun part => trim part.toList
  let identifier := String.ofList (args.headD [])
  if identifier.isEmpty then throw .missingIdentifier
  else if !isIdentifier identifier then throw (.invalidIdentifier identifier)
  else return { identifier, value := ← readValue defines args.tail }

/-- Read the text between the parentheses of an invocation. -/
def arguments (defines : Defines) (text : String) : Option (Reader Invocation) :=
  (byteSplit text).map fun parts => Reader.ofExcept parts >>= readParts defines

end CharScan

end FlashStrings
