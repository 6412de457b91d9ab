import FlashStrings.Text.Class
import FlashStrings.Value

/-!
# Identifiers, locale codes and string defines

An identifier of a string is made of the characters of a C name.  It may begin
with a digit, since the symbols made from it always carry a prefix.
-/

namespace FlashStrings

/-- A non-empty text of C name characters. -/
def isIdentifier (text : String) : Bool :=
  !text.isEmpty && text.toList.all isNameChar

/-- A character of a locale code. -/
def isLocaleChar (c : Char) : Bool := isNameChar c || c == '-'

/-- The wildcard, or a non-empty text of name characters and hyphens. -/
def isLocaleCode (text : String) : Bool :=
  text == wildcardLocale || (!text.isEmpty && text.toList.all isLocaleChar)

/-- The string defines: the literal content that a name stands for. -/
abbrev Defines := TextMap String

end FlashStrings
