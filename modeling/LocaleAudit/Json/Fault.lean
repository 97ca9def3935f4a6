import LocaleAudit.Text.Lines

/-!
# LocaleAudit.Json.Fault

Why a text is not JSON, and where.
-/

namespace LocaleAudit.Json

open Text

/-- What was looked for where something else stands. -/
inductive Wanted
  /-- A value. -/
  | value
  /-- The name of a member. -/
  | memberName
  /-- The colon behind the name of a member. -/
  | colon
  /-- A comma or the given bracket. -/
  | commaOr (bracket : Char)
  /-- A character that a backslash may stand in front of. -/
  | escape
  /-- A hexadecimal digit of an escape. -/
  | hexDigit
  /-- A digit of the whole part of a number. -/
  | digit
  /-- A digit behind a point. -/
  | fractionDigit
  /-- A digit of an exponent. -/
  | exponentDigit
deriving Repr, DecidableEq

/-- Why a text is not JSON. -/
inductive Cause
  /-- Something is missing, and a character or the end of the text stands there. -/
  | missing (wanted : Wanted) (found : Option Char)
  /-- Something follows the value. -/
  | trailing
  /-- A string does not end. -/
  | openString
  /-- A string ends behind a backslash. -/
  | openEscape
  /-- A control character stands in a string. -/
  | controlCharacter
  /-- Arrays and objects are nested too deeply. -/
  | tooDeep
deriving Repr, DecidableEq

/-- A cause, and where it shows, in bytes. -/
structure Fault where
  /-- The cause. -/
  cause : Cause
  /-- Where it shows. -/
  offset : Nat
deriving Repr, DecidableEq

/-! ## messages -/

/-- What is said about something that is missing. -/
def Wanted.message : Wanted → String
  | value => "expected a value"
  | memberName => "expected a property name"
  | colon => "expected ':'"
  | commaOr bracket => "expected ',' or '" ++ String.ofList [bracket] ++ "'"
  | escape => "invalid escape"
  | hexDigit => "invalid unicode escape"
  | digit => "invalid number"
  | fractionDigit => "invalid fraction"
  | exponentDigit => "invalid exponent"

/-- What is said about a cause. -/
def Cause.message : Cause → String
  | missing wanted (some c) => wanted.message ++ ", found '" ++ String.ofList [c] ++ "'"
  | missing wanted none => wanted.message ++ ", found end of input"
  | trailing => "unexpected trailing characters"
  | openString => "unterminated string"
  | openEscape => "unterminated escape sequence"
  | controlCharacter => "control character in string"
  | tooDeep => "nesting too deep"

/-- A message with the place that it is about. -/
def placed (message : String) (p : Position) : String :=
  message ++ " at line " ++ toString p.line ++ ", column " ++ toString p.col

/-- What is said about a fault of a text. -/
def Fault.message (text : List Char) (f : Fault) : String :=
  placed f.cause.message (position text f.offset)

end LocaleAudit.Json
