import FlashStrings.Invocation.Operand
import FlashStrings.Invocation.Split

/-!
# The arguments of an invocation

The first argument is the identifier.  The others give its value:

* a leading operand without a label is the fallback;
* `code; code: operand` gives one text to one or more locale codes;
* bare codes between commas go with the next labelled clause, so
  `de, bg: "x"` is the same as `de; bg: "x"`.

A code may be given a text twice if both times it is the same.  An empty
argument is an error, except that a single one behind the identifier means that
there is no value.
-/

namespace FlashStrings

/-- The identifier of an invocation and the value that it gives. -/
structure Invocation where
  identifier : String
  value : Value
  deriving DecidableEq, Repr

/-- Give a text to a locale code, unless it has another one. -/
def Value.assign (v : Value) (code text : String) : Except ArgumentError Value :=
  match v.locales.get? code with
  | some first =>
    if first = text then .ok v else .error (.duplicateLocale code first text)
  | none => .ok { v with locales := v.locales.insert code text }

namespace Argument

/-- The pieces before and behind the first colon at depth zero. -/
def label? (depth : Nat) : List Piece → Option (List Piece × List Piece)
  | [] => none
  | .char ':' :: ps =>
    if depth = 0 then some ([], ps) else push (.char ':') (label? depth ps)
  | .char '(' :: ps => push (.char '(') (label? (depth + 1) ps)
  | .char ')' :: ps => push (.char ')') (label? (depth - 1) ps)
  | p :: ps => push p (label? depth ps)
where
  /-- Put a piece in front of the label. -/
  push (p : Piece) (found : Option (List Piece × List Piece)) :
      Option (List Piece × List Piece) :=
    found.map fun (label, rest) => (p :: label, rest)

/-- The locale codes of a label. -/
def localeCodes (label : List Char) : Except ArgumentError (List String) :=
  (cutAt ';' label).mapM fun part =>
    let code := String.ofList (FlashStrings.trim part)
    if isLocaleCode code then .ok code else .error (.invalidLocaleCode code)

/-- Read the arguments behind the identifier into a value.  `first` says that
none has been read yet; `pending` are the bare codes that wait for a label. -/
def readValues (defines : Defines) (first : Bool) (value : Value) (pending : List String) :
    List (List Piece) → Except ArgumentError Value
  | [] => if pending.isEmpty then .ok value else .error (.missingLocaleValue (joined pending))
  | arg :: args =>
    if arg.isEmpty then .error .emptyArgument
    else
      match label? 0 arg with
      | some (label, rest) => do
        let codes := pending ++ (← localeCodes (text label))
        match operand defines rest with
        | .text content =>
          let value ← codes.foldlM (fun v code => v.assign code content) value
          readValues defines false value [] args
        | .word shown | .other shown => .error (.invalidValue shown)
        | .nothing => .error (.missingLocaleValue (joined codes))
      | none =>
        match operand defines arg with
        | .text content =>
          if first then readValues defines false { value with fallback := some content } pending args
          else .error (.unexpectedValue (shown arg))
        | .word code =>
          if first then .error (.invalidValue code)
          else readValues defines false value (pending ++ [code]) args
        | .other shown => .error (.invalidValue shown)
        | .nothing => .error .emptyArgument
where
  /-- Codes as they are shown. -/
  joined (codes : List String) : String := ";".intercalate codes

/-- The value that the arguments behind the identifier give. -/
def readValue (defines : Defines) (args : List (List Piece)) : Except ArgumentError Value :=
  match args with
  | [[]] => .ok {}
  | _ => (readValues defines true {} [] args).map Value.normalizeWildcard

/-- Read the pieces between the parentheses of an invocation.  `closed` says that
no unclosed literal follows them. -/
def readAll (defines : Defines) (closed : Bool) (ps : List Piece) :
    Except ArgumentError Invocation := do
  let args := (← split closed 0 ps).map trim
  let identifier := shown (args.headD [])
  if identifier.isEmpty then .error .missingIdentifier
  else if !isIdentifier identifier then .error (.invalidIdentifier identifier)
  else return { identifier, value := ← readValue defines args.tail }

end Argument

/-- Read the text between the parentheses of an invocation. -/
def parseArguments (defines : Defines) (text : String) : Except ArgumentError Invocation :=
  let (pieces, unclosed) := Argument.read text.toList
  Argument.readAll defines unclosed.isEmpty pieces

end FlashStrings
