import FlashStrings.Source.Cursor
import FlashStrings.Source.Extract
import FlashStrings.Source.Macro

/-!
# Scanning a source

`scan` finds the invocations of string macros in a text.  It is no preprocessor.
It steps over comments, literals and the lines that define or undefine the
string macros themselves; the bodies of other definitions are scanned like code,
and conditional directives are not evaluated.

The scan goes step by step.  Each step looks at the text behind the cursor,
takes at least one character (`Step.width_pos`) and finds at most one record or
error.  Behind an error the scan goes on after the opening parenthesis.

In the body of a function-like macro an invocation whose arguments mention a
parameter only forwards its arguments.  It is taken without finding anything.
-/

namespace FlashStrings

/-- An invocation that was refused. -/
structure ParseError where
  location : Location
  lineText : String
  macroName : String
  error : ArgumentError
  deriving DecidableEq, Repr

/-- What one invocation gives. -/
inductive Finding where
  | record (r : Record)
  | refused (e : ParseError)
  deriving DecidableEq, Repr

/-- What is the same for a whole scan. -/
structure ScanSettings where
  file : String
  defines : Defines

/-- The body of a macro definition that the scan has met last. -/
structure DefineBody where
  /-- The offset where the body ends. -/
  stop : Nat := 0
  /-- The parameters of the macro. -/
  params : List (List Char) := []

/-- One step of the scan. -/
structure Step where
  /-- How many characters the step takes. -/
  width : Nat
  /-- The macro body that counts from now on. -/
  body : DefineBody
  /-- What was found. -/
  found : Option Finding := none
  /-- A step takes at least one character. -/
  width_pos : 0 < width

namespace Scan

/-- The place of the cursor. -/
def location (settings : ScanSettings) (c : Cursor) : Location :=
  ⟨settings.file, c.line, c.col⟩

/-- A quote inside a number is a digit separator: the name characters right
before it begin with a digit. -/
def isDigitSeparator (c : Cursor) : Bool :=
  match (c.before.takeWhile isNameChar).getLast? with
  | some first => first.isDigit
  | none => false

/-! ## Directives -/

/-- The parameters in a parameter list, without the dots of a variadic one. -/
def params (list : List Char) : List (List Char) :=
  (cutAt ',' list).map trim |>.filter fun p => !p.isEmpty && p != "...".toList

/-- A step at the `#` of a directive, with the text behind it. -/
def directive (c : Cursor) (body : DefineBody) (s : List Char) : Step :=
  let blanks := s.takeWhile isLineBlank
  let s := s.drop blanks.length
  let name := s.takeWhile isNameChar
  let s := s.drop name.length
  let width := 1 + blanks.length + name.length
  have hwidth : 0 < width :=
    Nat.add_pos_left (Nat.add_pos_left Nat.one_pos blanks.length) name.length
  if name != "define".toList && name != "undef".toList then
    { width, body, width_pos := hwidth }
  else
    let lineWidth := Lexeme.logicalLine s
    let blanks := s.takeWhile isLineBlank
    let defined := (s.drop blanks.length).takeWhile isNameChar
    let definedName := String.ofList defined
    if (macroKind? definedName).isSome || definedName == autoInitBlock then
      { width := width + lineWidth, body, width_pos := Nat.add_pos_left hwidth lineWidth }
    else
      let stop := c.offset + width + lineWidth
      let headWidth := blanks.length + defined.length
      have hwidth : 0 < width + headWidth := Nat.add_pos_left hwidth headWidth
      let width := width + headWidth
      match (s.take lineWidth).drop headWidth with
      | '(' :: line =>
        let list := line.takeWhile (· != ')')
        if list.length < line.length then
          { width := width + list.length + 2, body := { stop, params := params list },
            width_pos := Nat.succ_pos (width + list.length + 1) }
        else { width, body := { stop }, width_pos := hwidth }
      | _ => { width, body := { stop }, width_pos := hwidth }

/-! ## Invocations -/

/-- Definitions and auto-init members need a text to store. -/
def needsText (kind : RecordKind) : Bool := kind != .reference

/-- Read the pieces between the parentheses of a macro of a kind. -/
def readArguments (settings : ScanSettings) (kind : RecordKind) (ps : List Piece) :
    Except ArgumentError Invocation := do
  let read ← Argument.readAll settings.defines true ps
  if needsText kind && read.value.fallback.isNone then .error .missingValue
  else return read

/-- What the text behind the opening parenthesis of an invocation gives, and how
many characters of it are taken.  `c` stands at the macro name. -/
def invocation (settings : ScanSettings) (c : Cursor) (body : DefineBody) (kind : RecordKind)
    (name : String) (s : List Char) : Option Finding × Nat :=
  match Argument.extract s with
  | .error e => refuse e
  | .ok (ps, width) =>
    if c.offset < body.stop && Argument.mentions body.params [] ps then (none, width)
    else
      match readArguments settings kind ps with
      | .error e => refuse e
      | .ok { identifier, value } =>
        (some (.record { identifier, kind, value, location := location settings c }), width)
where
  /-- The invocation is refused, and nothing behind the parenthesis is taken. -/
  refuse (error : ArgumentError) : Option Finding × Nat :=
    let lineText := String.ofList c.lineText
    (some (.refused { location := location settings c, lineText, macroName := name, error }), 0)

/-- A step at a name: its characters after the first and the text behind it. -/
def name (settings : ScanSettings) (c : Cursor) (body : DefineBody) (first : Char)
    (s : List Char) : Step :=
  let more := s.takeWhile isNameChar
  let s := s.drop more.length
  let width := 1 + more.length
  let name := String.ofList (first :: more)
  if s.head? == some '"' && Lexeme.rawMarks.contains name then
    { width := width + 1 + Lexeme.rawString s.tail, body, width_pos := by omega }
  else
    match macroKind? name with
    | none => { width, body, width_pos := by omega }
    | some kind =>
      let gap := Lexeme.trivia s
      match s.drop gap with
      | '(' :: s =>
        let (found, taken) := invocation settings c body kind name s
        { width := width + gap + 1 + taken, body, found, width_pos := by omega }
      | _ => { width, body, width_pos := by omega }

/-! ## The scan -/

/-- The step at a cursor, with the text behind it. -/
def step (settings : ScanSettings) (c : Cursor) (body : DefineBody) (first : Char)
    (s : List Char) : Step :=
  if first = '\'' && isDigitSeparator c then { width := 1, body, width_pos := Nat.one_pos }
  else if first = '#' && c.atLineStart then directive c body s
  else if isNameStart first then name settings c body first s
  else if first.isDigit then
    { width := 1 + (s.takeWhile isNameChar).length, body,
      width_pos := Nat.add_pos_left Nat.one_pos _ }
  else { width := Lexeme.width (first :: s), body, width_pos := Lexeme.width_cons_pos first s }

/-- Scan from a cursor to the end of the text; `found` holds what was found so
far, last one first. -/
def run (settings : ScanSettings) (c : Cursor) (body : DefineBody) (found : List Finding) :
    List Finding :=
  match h : c.after with
  | [] => found.reverse
  | first :: s =>
    let next := step settings c body first s
    have : (c.advance next.width).after.length < c.after.length := by
      have := next.width_pos
      rw [Cursor.length_after_advance, h, List.length_cons]
      omega
    run settings (c.advance next.width) next.body (next.found.toList ++ found)
termination_by c.after.length

end Scan

/-- The text of a source without the byte order mark at its start. -/
def withoutMark (text : String) : List Char :=
  match text.toList with
  | '\uFEFF' :: s => s
  | s => s

/-- What the invocations of a source give, in the order of the source. -/
def scan (settings : ScanSettings) (text : String) : List Finding :=
  Scan.run settings (.start (withoutMark text)) {} []

/-- The records among the findings. -/
def recordsOf (found : List Finding) : List Record :=
  found.filterMap fun
    | .record r => some r
    | .refused _ => none

/-- The errors among the findings. -/
def errorsOf (found : List Finding) : List ParseError :=
  found.filterMap fun
    | .record _ => none
    | .refused e => some e

end FlashStrings
