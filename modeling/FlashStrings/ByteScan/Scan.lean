import FlashStrings.ByteScan.Ends
import FlashStrings.Proofs.Except
import FlashStrings.Source.Scan

/-!
# Scanning by byte offsets

The scan of `Scan`, with a byte offset in place of a cursor and with an index of the
offsets where the lines start.  A step has no answer where a part of the text is taken
that does not begin and end with characters, or where an index leads out of its list;
then the scan has none either.  Each step that has an answer goes on (`lt_step?`), so that
the steps end.

Both forms find the same (`Proofs/ByteScan/Scan`).
-/

namespace FlashStrings

namespace ByteScan

/-- One less, unless there is none less. -/
def pred? : Nat → Option Nat
  | 0 => none
  | n + 1 => some n

/-! ## Lines -/

/-- The offsets behind the newlines among the bytes that begin at an offset. -/
def startsFrom (i : Nat) (bytes : Bytes) : List Nat :=
  (bytes.zipIdx i).filterMap fun (b, i) => if Char.ofUInt8 b = '\n' then some (i + 1) else none

/-- The offsets where the lines start. -/
def lineStarts (text : List Char) : List Nat := 0 :: startsFrom 0 (utf8 text)

/-- Search an increasing list for a number between two places: the place where it stands,
or the place of the first greater one. -/
def search (index : List Nat) (x lo hi : Nat) (hhi : hi ≤ index.length) : Except Nat Nat :=
  if h : lo < hi then
    let mid := lo + (hi - lo) / 2
    have : mid < index.length := by omega
    if index[mid] = x then .ok mid
    else if index[mid] < x then search index x (mid + 1) hi hhi
    else search index x lo mid (by omega)
  else .error lo
termination_by hi - lo

/-- The line of an offset, from one. -/
def lineAt (index : List Nat) (i : Nat) : Nat :=
  match search index i 0 index.length (Nat.le_refl _) with
  | .ok line => line + 1
  | .error line => line

/-- The location of an offset. -/
def location? (file : String) (text : List Char) (i : Nat) : Option Location := do
  let line := lineAt (lineStarts text) i
  let start ← (lineStarts text)[← pred? line]?
  let before ← slice? text start i
  return ⟨file, line, before.length + 1⟩

/-- The offset of the newline that ends a line, or of the end of the text. -/
def lineStop? (text : List Char) (line : Nat) : Option Nat :=
  match (lineStarts text)[line]? with
  | some next => pred? next
  | none => some (byteSize text)

/-- The text of a line, without the newline and the carriage returns at its end. -/
def lineText? (text : List Char) (line : Nat) : Option (List Char) := do
  let start ← (lineStarts text)[← pred? line]?
  return dropWhileEnd (· == '\r') (← slice? text start (← lineStop? text line))

/-! ## Arguments -/

/-- Collect the text of the arguments up to the parenthesis that closes the invocation.
`depth` counts the open parentheses, and what stands between `start` and `i` is still to
be taken.  The answer has the offset behind the closing parenthesis. -/
def collect? (text : List Char) (depth start i : Nat) (args : List Char) :
    Option (Except ArgumentError (List Char × Nat)) :=
  match h : byteAt? (utf8 text) i with
  | none => some (.error .unbalancedParentheses)
  | some c =>
    have := lt_length_of_byteAt? h
    if c = '(' then collect? text (depth + 1) start (i + 1) args
    else if c = ')' then do
      let depth ← pred? depth
      if depth = 0 then return .ok (args ++ (← slice? text start i), i + 1)
      else collect? text depth start (i + 1) args
    else if c = '"' ∨ c = '\'' then
      match hl : literalEnd? (utf8 text) i with
      | some j =>
        have := lt_literalEnd? hl
        collect? text depth start j args
      | none => some (.error .unterminatedString)
    else
      match hc : commentEnd? (utf8 text) i with
      | some j => do
        have := lt_commentEnd? hc
        let part ← slice? text start i
        collect? text depth j j (args ++ part ++ [' '])
      | none => collect? text depth start (i + 1) args
termination_by byteSize text - i
decreasing_by all_goals simp only [byteSize]; omega

/-- The text of the arguments behind an opening parenthesis and the offset behind its
partner. -/
def arguments? (text : List Char) (opening : Nat) :
    Option (Except ArgumentError (List Char × Nat)) :=
  collect? text 1 (opening + 1) (opening + 1) []

theorem lt_collect? {text : List Char} {depth start i stop : Nat} {args found : List Char}
    (h : collect? text depth start i args = some (.ok (found, stop))) : i < stop := by
  fun_induction collect? text depth start i args with
  | case1 => cases h
  | case2 _ _ i _ _ _ ih => exact Nat.lt_trans (Nat.lt_succ_self i) (ih h)
  | case3 _ _ i _ _ _ _ ih =>
    obtain ⟨depth, -, h⟩ := Option.bind_eq_some_iff.1 h
    split at h
    · obtain ⟨part, -, h⟩ := Option.bind_eq_some_iff.1 h
      cases h
      exact Nat.lt_succ_self i
    · exact Nat.lt_trans (Nat.lt_succ_self i) (ih depth h)
  | case4 =>
    rename_i hlt ih
    exact Nat.lt_trans hlt (ih h)
  | case5 => cases h
  | case6 =>
    rename_i hlt ih
    obtain ⟨part, -, h⟩ := Option.bind_eq_some_iff.1 h
    exact Nat.lt_trans hlt (ih part h)
  | case7 _ _ i =>
    rename_i ih
    exact Nat.lt_trans (Nat.lt_succ_self i) (ih h)

theorem lt_arguments? {text : List Char} {opening stop : Nat} {args : List Char}
    (h : arguments? text opening = some (.ok (args, stop))) : opening < stop :=
  Nat.lt_of_succ_lt (lt_collect? h)

/-- Whether one of the names stands as a word outside of literals, from an offset on. -/
def mentionsFrom? (names : List (List Char)) (args : List Char) (i : Nat) : Option Bool :=
  match h : byteAt? (utf8 args) i with
  | none => some false
  | some c =>
    have := lt_length_of_byteAt? h
    if c = '"' ∨ c = '\'' then
      match hl : literalEnd? (utf8 args) i with
      | some j =>
        have := lt_literalEnd? hl
        mentionsFrom? names args j
      | none => mentionsFrom? names args (byteSize args)
    else if hc : isNameStart c = true then do
      have := lt_nameEnd h (isNameChar_of_isNameStart hc)
      let word ← slice? args i (nameEnd (utf8 args) i)
      if names.contains word then return true
      else mentionsFrom? names args (nameEnd (utf8 args) i)
    else if hc : c.isDigit = true then
      have := lt_nameEnd h (isNameChar_of_isDigit hc)
      mentionsFrom? names args (nameEnd (utf8 args) i)
    else mentionsFrom? names args (i + 1)
termination_by byteSize args - i
decreasing_by all_goals simp only [byteSize] at *; omega

/-- Whether one of the names stands in the arguments as a word outside of literals. -/
def mentions? (names : List (List Char)) (args : List Char) : Option Bool :=
  if names.isEmpty then some false else mentionsFrom? names args 0

/-! ## Steps -/

/-- Where a scan stands. -/
structure State where
  /-- The offset of the next byte. -/
  pos : Nat := 0
  /-- The offset where the macro body ends that the scan has met last. -/
  bodyEnd : Nat := 0
  /-- The parameters of that macro. -/
  params : List (List Char) := []
  records : List Record := []
  errors : List ParseError := []

/-- The first character of the name that stands right before an offset. -/
def nameStart (bytes : Bytes) : Nat → Nat
  | 0 => 0
  | i + 1 => if (byteAt? bytes i).any isNameChar then nameStart bytes i else i + 1

/-- A quote inside a number is a digit separator. -/
def isDigitSeparator (bytes : Bytes) (i : Nat) : Bool :=
  nameStart bytes i < i && (byteAt? bytes (nameStart bytes i)).any Char.isDigit

/-- Whether only blanks stand between the start of the line and an offset. -/
def atLineStart (bytes : Bytes) (i : Nat) : Bool :=
  (((bytes.take i).reverse.map Char.ofUInt8).takeWhile (· != '\n')).all fun b =>
    b == ' ' || b == '\t' || b == '\r'

variable (settings : ScanSettings) (text : List Char)

/-- The end of the parameter list at an offset of a line, and the parameters.  Where no
list is, nothing is taken. -/
def parameters? (i lineEnd : Nat) : Option (Nat × List (List Char)) :=
  if byteAt? (utf8 text) i = some '(' then do
    match find? [')'] (← slice? text i lineEnd) with
    | some width => return (i + width + 1, Scan.params (← slice? text (i + 1) (i + width)))
    | none => return (i, [])
  else some (i, [])

/-- A step at the `#` of a directive. -/
def directive? (σ : State) : Option State := do
  let nameStart := skipWhile isLineBlank (utf8 text) (σ.pos + 1)
  let pos := nameEnd (utf8 text) nameStart
  let name ← slice? text nameStart pos
  if name != "define".toList && name != "undef".toList then return { σ with pos }
  else
    let lineEnd := logicalLineEnd (utf8 text) pos
    let definedStart := skipWhile isLineBlank (utf8 text) pos
    let pos := nameEnd (utf8 text) definedStart
    let defined := String.ofList (← slice? text definedStart pos)
    if (macroKind? defined).isSome || defined == autoInitBlock then
      return { σ with pos := lineEnd }
    else
      let (pos, params) ← parameters? text pos lineEnd
      return { σ with pos, bodyEnd := lineEnd, params }

/-- Read the text of the arguments of a macro of a kind. -/
def readText (kind : RecordKind) (args : List Char) : Except ArgumentError Invocation := do
  let read ← parseArguments settings.defines (String.ofList args)
  if Scan.needsText kind && read.value.fallback.isNone then .error .missingValue
  else return read

/-- Whether an invocation at an offset only forwards the parameters of a macro. -/
def forwards? (σ : State) (start : Nat) (args : List Char) : Option Bool :=
  if start < σ.bodyEnd then mentions? σ.params args else some false

/-- What an invocation gives, and the offset behind it. -/
def invoked? (σ : State) (kind : RecordKind) (start opening : Nat) :
    Option (Except ArgumentError (Option Invocation × Nat)) := do
  match ← arguments? text opening with
  | .error e => return .error e
  | .ok (args, stop) =>
    if ← forwards? σ start args then return .ok (none, stop)
    else return (readText settings kind args).map fun read => (some read, stop)

/-- A step at an invocation that is refused: nothing behind the parenthesis is taken. -/
def refused? (σ : State) (location : Location) (start opening : Nat) (error : ArgumentError) :
    Option State := do
  let lineText := String.ofList (← lineText? text location.line)
  let macroName := String.ofList (← slice? text start (nameEnd (utf8 text) start))
  let e := { location, lineText, macroName, error }
  return { σ with pos := opening + 1, errors := σ.errors ++ [e] }

/-- A step at an invocation: the offset of the macro name and that of the parenthesis. -/
def invocation? (σ : State) (kind : RecordKind) (start opening : Nat) : Option State := do
  let location ← location? settings.file text start
  match ← invoked? settings text σ kind start opening with
  | .error e => refused? text σ location start opening e
  | .ok (none, stop) => return { σ with pos := stop }
  | .ok (some { identifier, value }, stop) =>
    let r := { identifier, kind, value, location }
    return { σ with pos := stop, records := σ.records ++ [r] }

/-- A step at a name. -/
def name? (σ : State) : Option State := do
  let pos := nameEnd (utf8 text) σ.pos
  let name := String.ofList (← slice? text σ.pos pos)
  if byteAt? (utf8 text) pos = some '"' ∧ Lexeme.rawMarks.contains name then
    return { σ with pos := ← rawStringEnd? text pos }
  else
    match macroKind? name with
    | none => return { σ with pos }
    | some kind =>
      let opening := triviaEnd (utf8 text) pos
      if byteAt? (utf8 text) opening = some '(' then
        invocation? settings text { σ with pos } kind σ.pos opening
      else return { σ with pos }

/-- The step at an offset, with the byte that stands there. -/
def step? (σ : State) (c : Char) : Option State :=
  if c = '\'' ∧ isDigitSeparator (utf8 text) σ.pos then some { σ with pos := σ.pos + 1 }
  else if c = '#' ∧ atLineStart (utf8 text) σ.pos then directive? text σ
  else if isNameStart c then name? settings text σ
  else if c.isDigit then some { σ with pos := nameEnd (utf8 text) σ.pos }
  else some { σ with pos := lexemeEnd (utf8 text) σ.pos }

/-! ## Running to the end -/

variable {settings text}

theorem le_parameters? {i lineEnd j : Nat} {params : List (List Char)}
    (h : parameters? text i lineEnd = some (j, params)) : i ≤ j := by
  unfold parameters? at h
  split at h
  · obtain ⟨line, -, h⟩ := Option.bind_eq_some_iff.1 h
    split at h
    · obtain ⟨part, -, h⟩ := Option.bind_eq_some_iff.1 h
      cases h
      omega
    · cases h
      exact Nat.le_refl i
  · cases h
    exact Nat.le_refl i

theorem lt_directive? {σ σ' : State} (hpos : σ.pos < byteSize text)
    (h : directive? text σ = some σ') : σ.pos < σ'.pos := by
  have hblank := le_skipWhile isLineBlank (utf8 text)
  have hname := le_nameEnd (utf8 text)
  -- The name of the directive ends behind the `#`.
  have hdirective : σ.pos < nameEnd (utf8 text) (skipWhile isLineBlank (utf8 text) (σ.pos + 1)) :=
    Nat.lt_of_succ_le (Nat.le_trans (hblank _) (hname _))
  obtain ⟨name, -, h⟩ := Option.bind_eq_some_iff.1 h
  split at h
  · cases h
    exact hdirective
  · obtain ⟨defined, -, h⟩ := Option.bind_eq_some_iff.1 h
    simp only at h
    split at h
    · cases h
      exact lt_logicalLineEnd hdirective hpos
    · obtain ⟨⟨j, params⟩, hparams, h⟩ := Option.bind_eq_some_iff.1 h
      cases h
      exact Nat.lt_of_lt_of_le hdirective
        (Nat.le_trans (Nat.le_trans (hblank _) (hname _)) (le_parameters? hparams))

theorem lt_invoked? {σ : State} {kind : RecordKind} {start opening stop : Nat}
    {read : Option Invocation}
    (h : invoked? settings text σ kind start opening = some (.ok (read, stop))) :
    opening < stop := by
  obtain ⟨args, hargs, h⟩ := Option.bind_eq_some_iff.1 h
  split at h
  · cases h
  · obtain ⟨forwards, -, h⟩ := Option.bind_eq_some_iff.1 h
    split at h
    · cases h
      exact lt_arguments? hargs
    · obtain ⟨invocation, -, heq⟩ := map_eq_ok (Option.some.inj h)
      cases heq
      exact lt_arguments? hargs

theorem refused?_pos {σ σ' : State} {location : Location} {start opening : Nat}
    {error : ArgumentError} (h : refused? text σ location start opening error = some σ') :
    σ'.pos = opening + 1 := by
  obtain ⟨line, -, h⟩ := Option.bind_eq_some_iff.1 h
  obtain ⟨name, -, h⟩ := Option.bind_eq_some_iff.1 h
  cases h
  rfl

theorem lt_invocation? {σ σ' : State} {kind : RecordKind} {start opening : Nat}
    (h : invocation? settings text σ kind start opening = some σ') : opening < σ'.pos := by
  obtain ⟨location, -, h⟩ := Option.bind_eq_some_iff.1 h
  obtain ⟨read, hread, h⟩ := Option.bind_eq_some_iff.1 h
  split at h
  · exact refused?_pos h ▸ Nat.lt_succ_self opening
  · cases h
    exact lt_invoked? hread
  · cases h
    exact lt_invoked? hread

theorem lt_name? {σ σ' : State} {c : Char} (hbyte : byteAt? (utf8 text) σ.pos = some c)
    (hc : isNameChar c = true) (h : name? settings text σ = some σ') : σ.pos < σ'.pos := by
  have hname := lt_nameEnd hbyte hc
  obtain ⟨name, -, h⟩ := Option.bind_eq_some_iff.1 h
  simp only at h
  split at h
  · next hraw =>
    obtain ⟨j, hend, h⟩ := Option.bind_eq_some_iff.1 h
    cases h
    exact Nat.lt_trans hname (lt_rawStringEnd? (lt_length_of_byteAt? hraw.1) hend)
  · split at h
    · cases h
      exact hname
    · split at h
      · have hgap := le_triviaEnd (utf8 text) (nameEnd (utf8 text) σ.pos)
        have hopening := lt_invocation? h
        omega
      · cases h
        exact hname

/-- Each step goes on. -/
theorem lt_step? {σ σ' : State} {c : Char} (hbyte : byteAt? (utf8 text) σ.pos = some c)
    (h : step? settings text σ c = some σ') : σ.pos < σ'.pos := by
  unfold step? at h
  split at h
  · cases h
    exact Nat.lt_succ_self σ.pos
  split at h
  · exact lt_directive? (lt_length_of_byteAt? hbyte) h
  split at h
  · next hc => exact lt_name? hbyte (isNameChar_of_isNameStart hc) h
  split at h
  · next hc =>
    cases h
    exact lt_nameEnd hbyte (isNameChar_of_isDigit hc)
  · cases h
    exact lt_lexemeEnd (utf8 text) σ.pos

variable (settings text)

/-- Go on to the end of the text. -/
def run (σ : State) : Option State :=
  match hbyte : byteAt? (utf8 text) σ.pos with
  | none => some σ
  | some c =>
    have := lt_length_of_byteAt? hbyte
    match hstep : step? settings text σ c with
    | none => none
    | some σ' =>
      have := lt_step? hbyte hstep
      run σ'
termination_by byteSize text - σ.pos
decreasing_by simp only [byteSize]; omega

end ByteScan

/-- The records and the errors of a source. -/
def byteScan (settings : ScanSettings) (text : String) : Option (List Record × List ParseError) :=
  (ByteScan.run settings (withoutMark text) {}).map fun σ => (σ.records, σ.errors)

end FlashStrings
