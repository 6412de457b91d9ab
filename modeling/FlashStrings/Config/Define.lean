import FlashStrings.Invocation.Names
import FlashStrings.Text.Trim

/-!
# Defines

A define is written `NAME` or `NAME=VALUE`.  A value in double quotes makes it a
string define, whose name may stand for the text between the quotes.  Build files
often hold the outer quotes with backslashes, `NAME=\"TEXT\"`, and that is read
in the same way.
-/

namespace FlashStrings

/-- A define as it is written. -/
structure Define where
  name : String
  /-- What stands behind the equals sign. -/
  value : Option String
  deriving DecidableEq, Repr

/-- Read a define.  The name is a C name and the value stands in one line. -/
def Define.parse? (text : String) : Option Define :=
  let s := text.toList
  let name := s.takeWhile isNameChar
  if name.head?.any isNameStart then
    match s.drop name.length with
    | [] => some ⟨String.ofList name, none⟩
    | '=' :: value =>
      if value.contains '\n' then none else some ⟨String.ofList name, some (String.ofList value)⟩
    | _ => none
  else none

/-- A quote with a backslash before it. -/
def escapedQuote : List Char := ['\\', '"']

/-- A text with plain quotes for its quotes with backslashes. -/
def plainQuotes : List Char → List Char
  | '\\' :: '"' :: s => '"' :: plainQuotes s
  | c :: s => c :: plainQuotes s
  | [] => []

/-- The text between the double quotes around a value. -/
def betweenQuotes? (value : List Char) : Option (List Char) :=
  let value := trim value
  let value :=
    if escapedQuote.isPrefixOf value && escapedQuote.isSuffixOf value then plainQuotes value
    else value
  match value with
  | '"' :: s => if s.getLast? = some '"' then some s.dropLast else none
  | _ => none

/-- The name and the text of a string define. -/
def stringDefine? (text : String) : Option (String × String) := do
  let define ← Define.parse? text
  let value ← define.value
  return (define.name, String.ofList (← betweenQuotes? value.toList))

/-- The string defines among some defines; of two with one name, the later. -/
def stringDefines (defines : List String) : Defines := .ofList (defines.filterMap stringDefine?)

example : stringDefine? "VENDOR=\\\"Acme\\\"" = some ("VENDOR", "Acme") := by decide
example : stringDefine? "LEVEL=3" = none := by decide

end FlashStrings
