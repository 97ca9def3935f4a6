import LocaleAudit.Json.Value

/-!
# LocaleAudit.Json.Printer

JSON values as text: compact, without any blanks, and pretty, with a line for each element and an
indentation of two spaces for each level.
-/

namespace LocaleAudit.Json

/-! ## strings -/

/-- A hexadecimal digit. -/
def hexChar (n : Nat) : Char := if n < 10 then Char.ofNat (48 + n) else Char.ofNat (87 + n)

/-- A character in a string: quotes, backslashes and control characters are escaped. -/
def escaped (c : Char) : List Char :=
  if c = '"' then ['\\', '"']
  else if c = '\\' then ['\\', '\\']
  else if c = '\x08' then ['\\', 'b']
  else if c = '\x0c' then ['\\', 'f']
  else if c = '\n' then ['\\', 'n']
  else if c = '\r' then ['\\', 'r']
  else if c = '\t' then ['\\', 't']
  else if c.toNat < 0x20 then
    ['\\', 'u', '0', '0', hexChar (c.toNat / 16), hexChar (c.toNat % 16)]
  else [c]

/-- A string in quotes. -/
def quoted (s : String) : List Char := '"' :: (s.toList.flatMap escaped ++ ['"'])

/-! ## compact text -/

mutual

/-- The compact text of a value. -/
def Value.compact : Value → List Char
  | .null => "null".toList
  | .bool b => (if b then "true" else "false").toList
  | .number n => n.text
  | .string s => quoted s
  | .array elements => '[' :: (compactElements elements ++ [']'])
  | .object members => '{' :: (compactMembers members ++ ['}'])

/-- The compact text of elements with commas between them. -/
def compactElements : List Value → List Char
  | [] => []
  | [v] => v.compact
  | v :: vs => v.compact ++ ',' :: compactElements vs

/-- The compact text of members with commas between them. -/
def compactMembers : List (String × Value) → List Char
  | [] => []
  | [(name, v)] => quoted name ++ ':' :: v.compact
  | (name, v) :: ms => quoted name ++ ':' :: v.compact ++ ',' :: compactMembers ms

end

/-! ## pretty text -/

/-- A new line at the given level. -/
def lineBreak (level : Nat) : List Char := '\n' :: List.replicate (2 * level) ' '

mutual

/-- The pretty text of a value at the given level. -/
def Value.prettyFrom (level : Nat) : Value → List Char
  | .array [] => ['[', ']']
  | .array elements => '[' :: (prettyElements (level + 1) elements ++ lineBreak level ++ [']'])
  | .object [] => ['{', '}']
  | .object members => '{' :: (prettyMembers (level + 1) members ++ lineBreak level ++ ['}'])
  | .null => "null".toList
  | .bool b => (if b then "true" else "false").toList
  | .number n => n.text
  | .string s => quoted s

/-- The pretty text of elements, each on a line of its own. -/
def prettyElements (level : Nat) : List Value → List Char
  | [] => []
  | [v] => lineBreak level ++ v.prettyFrom level
  | v :: vs => lineBreak level ++ v.prettyFrom level ++ ',' :: prettyElements level vs

/-- The pretty text of members, each on a line of its own. -/
def prettyMembers (level : Nat) : List (String × Value) → List Char
  | [] => []
  | [(name, v)] => lineBreak level ++ quoted name ++ ':' :: ' ' :: v.prettyFrom level
  | (name, v) :: ms =>
    lineBreak level ++ quoted name ++ ':' :: ' ' :: v.prettyFrom level ++
      ',' :: prettyMembers level ms

end

/-- The pretty text of a value. -/
def Value.pretty (v : Value) : List Char := v.prettyFrom 0

end LocaleAudit.Json
