import FlashStrings.Json.Basic
import FlashStrings.Json.Token

/-!
# Reading JSON

A reader takes the tokens of a text one by one.  It keeps the arrays and objects
that are open around the place it stands at, innermost first, and what may come
next.  `Json.parse?` succeeds when the last token completes the only value of
the text.
-/

namespace FlashStrings

namespace Json

/-- An array or object that is open, with what it holds so far, last one first. -/
inductive Frame where
  | array (items : List Json)
  | object (members : List (Option String × Json))
  /-- An object that waits for the value of a key. -/
  | member (members : List (Option String × Json)) (key : Option String)

/-- Where a reader stands. -/
inductive Reader where
  /-- A value is next. -/
  | atValue (frames : List Frame)
  /-- An array or object was just opened: it may close at once. -/
  | opened (frames : List Frame)
  | atKey (frames : List Frame)
  | atColon (frames : List Frame)
  /-- A value of the innermost array or object is complete. -/
  | behind (frames : List Frame)
  /-- The whole text is complete. -/
  | done (j : Json)

namespace Reader

/-- Take a complete value. -/
def complete (j : Json) : List Frame → Option Reader
  | [] => some (.done j)
  | .array items :: rest => some (.behind (.array (j :: items) :: rest))
  | .member members key :: rest => some (.behind (.object ((key, j) :: members) :: rest))
  | .object _ :: _ => none

/-- Close the innermost array or object. -/
def close (t : Token) : List Frame → Option Reader
  | .array items :: rest =>
    if t = .closeArray then complete (.array items.reverse) rest else none
  | .object members :: rest =>
    if t = .closeObject then complete (.object members.reverse) rest else none
  | _ => none

/-- Take the first token of a value. -/
def beginValue (t : Token) (frames : List Frame) : Option Reader :=
  match t with
  | .openArray => some (.opened (.array [] :: frames))
  | .openObject => some (.opened (.object [] :: frames))
  | .null => complete .null frames
  | .bool b => complete (.bool b) frames
  | .num n => complete (.num n) frames
  | .text s => complete (.text s) frames
  | _ => none

/-- Take the key of a member. -/
def beginMember (t : Token) : List Frame → Option Reader
  | .object members :: rest =>
    match t with
    | .text key => some (.atColon (.member members key :: rest))
    | _ => none
  | _ => none

/-- Take one token. -/
def step (r : Reader) (t : Token) : Option Reader :=
  match r with
  | .atValue frames => beginValue t frames
  | .opened frames =>
    (close t frames).orElse fun _ =>
      match frames with
      | .object _ :: _ => beginMember t frames
      | _ => beginValue t frames
  | .atKey frames => beginMember t frames
  | .atColon frames => if t = .colon then some (.atValue frames) else none
  | .behind frames =>
    if t = .comma then
      match frames with
      | .object _ :: _ => some (.atKey frames)
      | _ => some (.atValue frames)
    else close t frames
  | .done _ => none

/-- The value of a text that is complete. -/
def result? : Reader → Option Json
  | .done j => some j
  | _ => none

end Reader

/-- The value of a JSON text. -/
def parse? (text : String) : Option Json := do
  let tokens ← Token.read? [] text.toList
  (← tokens.foldlM Reader.step (.atValue [])).result?

end Json

end FlashStrings
