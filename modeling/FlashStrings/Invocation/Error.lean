/-!
# Errors in the arguments of an invocation

`ArgumentError` lists why the arguments of a string macro can be refused, and
`ArgumentError.message` says it to the user.
-/

namespace FlashStrings

/-- Why the arguments of a string macro are refused. -/
inductive ArgumentError where
  | unterminatedString
  /-- Parentheses outside of literals do not pair up. -/
  | unbalancedParentheses
  | missingIdentifier
  | invalidIdentifier (text : String)
  | invalidLocaleCode (text : String)
  /-- Locale codes, joined by semicolons, are followed by no value. -/
  | missingLocaleValue (codes : String)
  /-- A locale code is given a second, different text. -/
  | duplicateLocale (code first second : String)
  /-- A value without a label stands behind the first value. -/
  | unexpectedValue (text : String)
  | emptyArgument
  | invalidValue (text : String)
  /-- The macro needs a text and got none. -/
  | missingValue
  deriving DecidableEq, Repr

/-- The error in words. -/
def ArgumentError.message : ArgumentError → String
  | .unterminatedString => "unterminated string literal"
  | .unbalancedParentheses => "unbalanced parentheses"
  | .missingIdentifier => "missing identifier"
  | .invalidIdentifier text => s!"invalid identifier `{text}`"
  | .invalidLocaleCode text => s!"invalid locale code `{text}`"
  | .missingLocaleValue codes => s!"locale `{codes}` has no value"
  | .duplicateLocale code first second =>
    s!"locale `{code}` is assigned two different values: \"{first}\" and \"{second}\""
  | .unexpectedValue text => s!"unlabelled value `{text}` is only allowed as the first value"
  | .emptyArgument => "empty argument"
  | .invalidValue text => s!"cannot use `{text}` as a string value"
  | .missingValue => "a string value is required"

end FlashStrings
