import LocaleAudit.Json.Value
import LocaleAudit.Text.Quoted
import LocaleAudit.Text.Slice

/-!
# LocaleAudit.Config.Fault

Why a text is not a configuration, and where. A fault shows behind the last byte that has been
looked at; lines are numbered from one, and columns count the bytes of a line that have been looked
at.
-/

namespace LocaleAudit.Config

open Text

/-- What stands where something of another type should. -/
inductive Found
  | null
  | bool (value : Bool)
  | number (value : Json.Number)
  | string (value : String)
  | list
  | object
deriving Repr, DecidableEq

/-- Why a text is not a configuration. -/
inductive Cause
  | endOfList | endOfObject | endOfString | endOfValue
  | noColon | noCommaInList | noCommaInObject | noWord | noValue | noName
  | badEscape | badNumber | numberTooLarge | controlCharacter
  | unpairedSurrogate | endOfPair
  | trailingComma | trailing | tooDeep
  /-- A value does not have the type that is expected. -/
  | wrongType (found : Found) (expected : String)
  /-- A field has an unknown name. -/
  | unknownField (name : String) (known : List String)
  /-- A field is given twice. -/
  | duplicateField (name : String)
  /-- A value has none of the forms of the given type. -/
  | noForm (type : String)
deriving Repr, DecidableEq

/-- A cause, and where it shows, in bytes. -/
structure Fault where
  /-- The cause. -/
  cause : Cause
  /-- Where it shows. -/
  offset : Nat
deriving Repr, DecidableEq

/-! ## messages -/

/-- A text between backquotes. -/
def backquoted (text : String) : String := "\x60" ++ text ++ "\x60"

/-- What is said about a value of another type. -/
def Found.message : Found → String
  | null => "null"
  | bool b => "boolean " ++ backquoted (if b then "true" else "false")
  | number (.whole i) => "integer " ++ backquoted (String.ofList (Json.Number.whole i).text)
  | number n => "floating point " ++ backquoted (String.ofList n.text)
  | string s => "string " ++ Quoted.encode s
  | list => "sequence"
  | object => "map"

/-- What is said about a cause. -/
def Cause.message : Cause → String
  | endOfList => "EOF while parsing a list"
  | endOfObject => "EOF while parsing an object"
  | endOfString => "EOF while parsing a string"
  | endOfValue => "EOF while parsing a value"
  | noColon => "expected " ++ backquoted ":"
  | noCommaInList => "expected " ++ backquoted "," ++ " or " ++ backquoted "]"
  | noCommaInObject => "expected " ++ backquoted "," ++ " or " ++ backquoted "\x7d"
  | noWord => "expected ident"
  | noValue => "expected value"
  | noName => "key must be a string"
  | badEscape => "invalid escape"
  | badNumber => "invalid number"
  | numberTooLarge => "number out of range"
  | controlCharacter => "control character (\\u0000-\\u001F) found while parsing a string"
  | unpairedSurrogate => "lone leading surrogate in hex escape"
  | endOfPair => "unexpected end of hex escape"
  | trailingComma => "trailing comma"
  | trailing => "trailing characters"
  | tooDeep => "recursion limit exceeded"
  | wrongType found expected => "invalid type: " ++ found.message ++ ", expected " ++ expected
  | unknownField name known =>
    "unknown field " ++ backquoted name ++ ", expected one of " ++
      ", ".intercalate (known.map backquoted)
  | duplicateField name => "duplicate field " ++ backquoted name
  | noForm type => "data did not match any variant of untagged enum " ++ type

/-- The line and the column behind the given number of bytes. -/
def lineAndColumn (text : List Char) (offset : Nat) : Nat × Nat :=
  go 1 0 offset text
where
  /-- The line and the column behind more bytes, from a line and a column on. -/
  go (line column : Nat) (left : Nat) : List Char → Nat × Nat
    | [] => (line, column)
    | c :: cs =>
      if left < c.utf8Size then (line, column + left)
      else if c = '\n' then go (line + 1) 0 (left - 1) cs
      else go line (column + c.utf8Size) (left - c.utf8Size) cs

/-- What is said about a fault of a text. -/
def Fault.message (text : List Char) (f : Fault) : String :=
  let (line, column) := lineAndColumn text f.offset
  f.cause.message ++ " at line " ++ toString line ++ " column " ++ toString column

end LocaleAudit.Config
