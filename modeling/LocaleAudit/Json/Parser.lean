import LocaleAudit.Json.Fault
import LocaleAudit.Json.Node
import LocaleAudit.Text.Slice
import LocaleAudit.Text.Utf16

/-!
# LocaleAudit.Json.Parser

Reading JSON with its places. Values may be nested, up to a limit. A reader takes a slice and gives
what it has read and the slice that is left, or the first fault.
-/

namespace LocaleAudit.Json

open Text

/-- A reader of something at the start of a slice. -/
abbrev Reader (α : Type) := Slice → Except Fault (α × Slice)

/-- The fault that something is missing at the start of a slice. -/
def missing {α : Type} (wanted : Wanted) (s : Slice) : Except Fault α :=
  .error ⟨.missing wanted s.text.head?, s.offset⟩

/-- A blank between tokens. -/
def isBlank (c : Char) : Bool := c == ' ' || c == '\n' || c == '\r' || c == '\t'

/-- The slice behind the blanks at its start. -/
def skipBlanks (s : Slice) : Slice := s.skipWhile isBlank

/-! ## strings -/

/-- The character that a short escape stands for. -/
def shortEscape? : Char → Option Char
  | '"' => some '"'
  | '\\' => some '\\'
  | '/' => some '/'
  | 'b' => some '\x08'
  | 'f' => some '\x0c'
  | 'n' => some '\n'
  | 'r' => some '\r'
  | 't' => some '\t'
  | _ => none

/-- The value of a hexadecimal digit. -/
def hexDigit? (c : Char) : Option Nat :=
  if c.isDigit then some (c.toNat - 48)
  else if 'a' ≤ c && c ≤ 'f' then some (c.toNat - 87)
  else if 'A' ≤ c && c ≤ 'F' then some (c.toNat - 55)
  else none

/-- Reads the given number of hexadecimal digits behind others that have the given value. -/
def hexDigits : Nat → Nat → Reader Nat
  | 0, value, s => .ok (value, s)
  | left + 1, value, s =>
    match s.text.head?.bind hexDigit? with
    | some digit => hexDigits left (value * 16 + digit) (s.drop 1)
    | none => missing .hexDigit s

/-- The character with a number, or the replacement character if there is none. -/
def charOf (code : Nat) : Char :=
  if code.isValidChar then Char.ofNat code else Utf16.replacement

/-- Reads an escape by number behind its letter. If another one follows the first half of a
surrogate pair, it is looked at, and left where it is unless it is the other half. -/
def numbered : Reader Char := fun s => do
  let (unit, s) ← hexDigits 4 0 s
  match if Utf16.isHigh unit then s.strip? ['\\', 'u'] else none with
  | some ahead =>
    let (low, rest) ← hexDigits 4 0 ahead
    return if Utf16.isLow low then (charOf (Utf16.join unit low), rest) else (charOf unit, s)
  | none => return (charOf unit, s)

/-- Reads an escape behind its backslash. -/
def escape : Reader Char := fun s =>
  match s.text with
  | [] => .error ⟨.openEscape, s.offset⟩
  | c :: _ =>
    if c = 'u' then numbered (s.drop 1)
    else match shortEscape? c with
      | some d => .ok (d, s.drop 1)
      | none => missing .escape s

/-- Reads at most the given number of characters and escapes of a string, and its closing quote. -/
def characters : Nat → Reader (List Char)
  | 0, s => .error ⟨.openString, s.offset⟩
  | left + 1, s =>
    match s.text with
    | [] => .error ⟨.openString, s.offset⟩
    | c :: _ =>
      if c = '"' then .ok ([], s.drop 1)
      else if c = '\\' then do
        let (d, rest) ← escape (s.drop 1)
        let (cs, rest) ← characters left rest
        return (d :: cs, rest)
      else if c.toNat < 0x20 then .error ⟨.controlCharacter, s.offset⟩
      else do
        let (cs, rest) ← characters left (s.drop 1)
        return (c :: cs, rest)

/-- Reads a string behind its opening quote. -/
def stringRest : Reader String := fun s => do
  let (cs, rest) ← characters (s.text.length + 1) s
  return (String.ofList cs, rest)

/-! ## numbers -/

/-- Reads at least one digit. -/
def digits (wanted : Wanted) : Reader (List Char) := fun s =>
  let (taken, rest) := s.span Char.isDigit
  if taken.text.isEmpty then missing wanted s else .ok (taken.text, rest)

/-- Reads the whole part of a number, which starts with a zero only if it is one. -/
def wholePart : Reader (List Char) := fun s =>
  match s.text with
  | '0' :: _ => .ok (['0'], s.drop 1)
  | _ => digits .digit s

/-- Reads one of the given characters, if it stands there. -/
def optionalOf (cs : List Char) : Reader (List Char) := fun s =>
  match s.text with
  | c :: _ => .ok (if cs.contains c then ([c], s.drop 1) else ([], s))
  | [] => .ok ([], s)

/-- Reads a fraction, if there is one. -/
def fractionPart : Reader (List Char) := fun s => do
  let (point, s) ← optionalOf ['.'] s
  if point.isEmpty then return ([], s)
  let (ds, s) ← digits .fractionDigit s
  return (point ++ ds, s)

/-- Reads an exponent, if there is one. -/
def exponentPart : Reader (List Char) := fun s => do
  let (mark, s) ← optionalOf ['e', 'E'] s
  if mark.isEmpty then return ([], s)
  let (sign, s) ← optionalOf ['+', '-'] s
  let (ds, s) ← digits .exponentDigit s
  return (mark ++ sign ++ ds, s)

/-- Reads a number as it is written. -/
def number : Reader String := fun s => do
  let (sign, s) ← optionalOf ['-'] s
  let (whole, s) ← wholePart s
  let (fraction, s) ← fractionPart s
  let (exponent, s) ← exponentPart s
  return (String.ofList (sign ++ whole ++ fraction ++ exponent), s)

/-! ## arrays and objects -/

/-- Reads at most the given number of items with commas between them, and the closing bracket. -/
def items {α : Type} (close : Char) (item : Reader α) : Nat → Reader (List α)
  | 0, s => missing (.commaOr close) s
  | left + 1, s => do
    let (a, rest) ← item (skipBlanks s)
    let rest := skipBlanks rest
    match rest.text with
    | c :: _ =>
      if c = ',' then
        let (as, rest) ← items close item left (rest.drop 1)
        return (a :: as, rest)
      else if c = close then return ([a], rest.drop 1)
      else missing (.commaOr close) rest
    | [] => missing (.commaOr close) rest

/-- Reads what a bracket has opened: any number of items, and the closing bracket. -/
def bracketed {α : Type} (close : Char) (item : Reader α) : Reader (List α) := fun s =>
  let inner := skipBlanks s
  if inner.text.head? = some close then .ok ([], inner.drop 1)
  else items close item (inner.text.length + 1) inner

/-- Reads a member of an object. -/
def member (value : Reader Node) : Reader (Member Node) := fun s =>
  match s.text with
  | '"' :: _ => do
    let (name, rest) ← stringRest (s.drop 1)
    let key : Key := ⟨name, ⟨s.offset, rest.offset⟩⟩
    let rest := skipBlanks rest
    match rest.text with
    | ':' :: _ =>
      let (node, rest) ← value (skipBlanks (rest.drop 1))
      return (⟨key, node, ⟨s.offset, rest.offset⟩⟩, rest)
    | _ => missing .colon rest
  | _ => missing .memberName s

/-! ## values -/

/-- Reads a word that is a value. -/
def word (w : String) (node : Span → Node) : Reader Node := fun s =>
  match s.strip? w.toList with
  | some rest => .ok (node ⟨s.offset, rest.offset⟩, rest)
  | none => missing .value s

/-- Reads a value with at most the given number of levels. -/
def value : Nat → Reader Node
  | 0, s => .error ⟨.tooDeep, s.offset⟩
  | levels + 1, s =>
    match s.text with
    | '{' :: _ => do
      let (ms, rest) ← bracketed '}' (member (value levels)) (s.drop 1)
      return (.object ms ⟨s.offset, rest.offset⟩, rest)
    | '[' :: _ => do
      let (ns, rest) ← bracketed ']' (value levels) (s.drop 1)
      return (.array ns ⟨s.offset, rest.offset⟩, rest)
    | '"' :: _ => do
      let (text, rest) ← stringRest (s.drop 1)
      return (.string text ⟨s.offset, rest.offset⟩, rest)
    | 't' :: _ => word "true" (.bool true) s
    | 'f' :: _ => word "false" (.bool false) s
    | 'n' :: _ => word "null" .null s
    | c :: _ =>
      if c = '-' || c.isDigit then do
        let (raw, rest) ← number s
        return (.number raw ⟨s.offset, rest.offset⟩, rest)
      else missing .value s
    | [] => missing .value s

/-- How many levels a text may have: the outermost value and 512 below it. -/
def levelLimit : Nat := 513

/-- A text behind the mark that may stand in front of it. -/
def behindMark (text : List Char) : Slice :=
  let s : Slice := ⟨0, text⟩
  (s.strip? ['\ufeff']).getD s

/-- The value that a text is written for. -/
def parse (text : List Char) : Except Fault Node := do
  let (node, rest) ← value levelLimit (skipBlanks (behindMark text))
  let rest := skipBlanks rest
  if rest.text.isEmpty then return node else .error ⟨.trailing, rest.offset⟩

end LocaleAudit.Json
