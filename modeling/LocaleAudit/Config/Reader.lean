import LocaleAudit.Config.Fault
import LocaleAudit.Json.Parser

/-!
# LocaleAudit.Config.Reader

Reading the parts of a configuration. The first fault of a text counts, and a value is looked at as
soon as it is read: a value of another type than expected is a fault even if the text behind it is
malformed.
-/

namespace LocaleAudit.Config

open Text

/-! ## readers -/

/-- Why reading has stopped. -/
inductive Trouble
  /-- With a fault. -/
  | fault (f : Fault)
  /-- With a cause that shows where the object or list around ends, or where it is seen not to. -/
  | raised (cause : Cause) (rest : Slice)

/-- A reader of something at the start of a slice. -/
abbrev Reader (α : Type) := Slice → Except Trouble (α × Slice)

/-- A fault in front of a slice. -/
def failBefore {α : Type} (cause : Cause) (s : Slice) : Except Trouble α :=
  .error (.fault ⟨cause, s.offset⟩)

/-- A fault that shows behind the first byte of a slice, if it has one. -/
def failAt {α : Type} (cause : Cause) (s : Slice) : Except Trouble α :=
  .error (.fault ⟨cause, s.offset + if s.text.isEmpty then 0 else 1⟩)

/-- The slice behind the blanks at its start. -/
def skip (s : Slice) : Slice := Json.skipBlanks s

/-- Reads the given characters of a word. -/
def wordRest : List Char → Reader Unit
  | [], s => .ok ((), s)
  | c :: cs, s => match s.text with
    | [] => failBefore .endOfValue s
    | d :: _ => if c = d then wordRest cs (s.drop 1) else failAt .noWord s

/-! ## strings -/

/-- Reads four hexadecimal digits. -/
def hexDigits : Reader Nat := fun s =>
  if byteLength s.text < 4 then .error (.fault ⟨.endOfString, s.offset + byteLength s.text⟩)
  else match (s.text.take 4).mapM Json.hexDigit? with
    | some ds => .ok (ds.foldl (fun n d => n * 16 + d) 0, s.drop 4)
    | none => .error (.fault ⟨.badEscape, s.offset + 4⟩)

/-- Reads one given character of a surrogate pair. -/
def pairPart (c : Char) : Reader Unit := fun s =>
  match s.text with
  | [] => failBefore .endOfString s
  | d :: _ => if c = d then .ok ((), s.drop 1) else failAt .endOfPair s

/-- Reads a character that is escaped by number, behind the letter of the escape. -/
def numbered : Reader Char := fun s => do
  let (unit, s) ← hexDigits s
  if Utf16.isLow unit then failBefore .unpairedSurrogate s
  else if Utf16.isHigh unit then
    let ((), s) ← pairPart '\\' s
    let ((), s) ← pairPart 'u' s
    let (low, s) ← hexDigits s
    if Utf16.isLow low then return (Char.ofNat (Utf16.join unit low), s)
    else failBefore .unpairedSurrogate s
  else return (Char.ofNat unit, s)

/-- Reads a character of a string, or nothing at its closing quote. -/
def character : Reader (Option Char) := fun s =>
  match s.text with
  | [] => failBefore .endOfString s
  | '"' :: _ => .ok (none, s.drop 1)
  | '\\' :: 'u' :: _ => do
    let (c, s) ← numbered (s.drop 2)
    return (some c, s)
  | '\\' :: c :: _ => match Json.shortEscape? c with
    | some d => .ok (some d, s.drop 2)
    | none => failAt .badEscape (s.drop 1)
  | ['\\'] => failBefore .endOfString (s.drop 1)
  | c :: _ => if c.toNat < 0x20 then failAt .controlCharacter s else .ok (some c, s.drop 1)

/-- Reads at most the given number of characters of a string, and its closing quote. -/
def characters : Nat → Reader (List Char)
  | 0, s => failBefore .endOfString s
  | left + 1, s => do
    match ← character s with
    | (none, s) => return ([], s)
    | (some c, s) =>
      let (cs, s) ← characters left s
      return (c :: cs, s)

/-- Reads a string behind its opening quote. -/
def stringRest : Reader String := fun s => do
  let (cs, s) ← characters (s.text.length + 1) s
  return (String.ofList cs, s)

/-! ## numbers -/

/-- The whole part of a number at the start of a slice. -/
def wholePart : Reader (List Char) := fun s =>
  match s.text with
  | [] => failBefore .endOfValue s
  | '0' :: cs =>
    if (cs.head?.map Char.isDigit).getD false then failAt .badNumber (s.drop 1)
    else .ok (['0'], s.drop 1)
  | c :: _ =>
    if c.isDigit then
      let (ds, s) := s.span Char.isDigit
      .ok (ds.text, s)
    else failAt .badNumber s

/-- The digits behind a point, if there is one. -/
def fractionPart : Reader (List Char) := fun s =>
  match s.text with
  | '.' :: _ =>
    let (ds, rest) := (s.drop 1).span Char.isDigit
    if ds.text.isEmpty then failAt (if rest.text.isEmpty then .endOfValue else .badNumber) rest
    else .ok (ds.text, rest)
  | _ => .ok ([], s)

/-- The largest exponent that is looked at. -/
def largestExponent : Nat := 1 <<< 31 - 1

/-- An exponent, if there is one: its sign and its digits. -/
def exponentPart : Reader (Option (Bool × List Char)) := fun s =>
  match s.text with
  | c :: _ =>
    if c = 'e' || c = 'E' then
      let s := s.drop 1
      let negative := s.text.head? = some '-'
      let s := if negative || s.text.head? = some '+' then s.drop 1 else s
      let (ds, rest) := s.span Char.isDigit
      if ds.text.isEmpty then failAt (if rest.text.isEmpty then .endOfValue else .badNumber) rest
      else .ok (some (negative, ds.text), rest)
    else .ok (none, s)
  | [] => .ok (none, s)

/-- How many digits of an exponent are read until it is seen to be too large. -/
def digitsUntilTooLarge (ds : List Char) : Nat :=
  (((List.range (ds.length + 1)).find? fun n =>
    Json.Number.valueOf (ds.take n) > largestExponent)).getD ds.length

/-- Reads a number behind its sign. -/
def numberRest (negative : Bool) : Reader Json.Number := fun s => do
  let (whole, s) ← wholePart s
  let (fraction, s) ← fractionPart s
  let (exponent, s) ← exponentPart s
  let power := exponent.map fun (below, ds) =>
    if below then -(Json.Number.valueOf ds : Int) else (Json.Number.valueOf ds : Int)
  match Json.Number.ofParts? negative whole fraction power with
  | some n => return (n, s)
  | none =>
    let unread := match exponent with
      | some (_, ds) => ds.length - digitsUntilTooLarge ds
      | none => 0
    .error (.fault ⟨.numberTooLarge, s.offset - unread⟩)

/-! ## lists and objects -/

/-- Goes to the next item of a list, or to its end. -/
def nextItem (first : Bool) (s : Slice) : Except Trouble (Option Slice) :=
  let s := skip s
  match s.text with
  | [] => failAt .endOfList s
  | ']' :: _ => .ok none
  | c :: _ =>
    if first then .ok (some s)
    else if c = ',' then
      let s := skip (s.drop 1)
      match s.text with
      | ']' :: _ => failAt .trailingComma s
      | [] => failAt .endOfValue s
      | _ => .ok (some s)
    else failAt .noCommaInList s

/-- Reads at most the given number of items of a list, and its closing bracket. -/
def items {α : Type} (item : Reader α) : Nat → Bool → Reader (List α)
  | 0, _, s => failAt .endOfList s
  | left + 1, first, s => do
    match ← nextItem first s with
    | none => return ([], (skip s).drop 1)
    | some s =>
      let (a, s) ← item s
      let (as, s) ← items item left false s
      return (a :: as, s)

/-- Goes behind the opening quote of the next name of an object, or to the end of the object. -/
def nextName (first : Bool) (s : Slice) : Except Trouble (Option Slice) :=
  let s := skip s
  match s.text with
  | [] => failAt .endOfObject s
  | '}' :: _ => .ok none
  | c :: _ =>
    if first then
      if c = '"' then .ok (some (s.drop 1)) else failAt .noName s
    else if c = ',' then
      let s := skip (s.drop 1)
      match s.text with
      | '"' :: _ => .ok (some (s.drop 1))
      | '}' :: _ => failAt .trailingComma s
      | [] => failAt .endOfValue s
      | _ => failAt .noName s
    else failAt .noCommaInObject s

/-- Reads the colon behind a name. -/
def colon : Reader Unit := fun s =>
  let s := skip s
  match s.text with
  | [] => failAt .endOfObject s
  | ':' :: _ => .ok ((), s.drop 1)
  | _ => failAt .noColon s

/-- Reads at most the given number of members of an object, and its closing bracket. -/
def members {α : Type} (value : Reader α) : Nat → Bool → Reader (List (String × α))
  | 0, _, s => failAt .endOfObject s
  | left + 1, first, s => do
    match ← nextName first s with
    | none => return ([], (skip s).drop 1)
    | some s =>
      let (name, s) ← stringRest s
      let ((), s) ← colon s
      let (a, s) ← value s
      let (ms, s) ← members value left false s
      return ((name, a) :: ms, s)

/-! ## values -/

/-- Reads any value with at most the given number of levels of lists and objects. Members of an
object are kept as they are written. -/
def anyValue (levels : Nat) : Reader Json.Value := fun s =>
  let s := skip s
  match s.text with
  | [] => failAt .endOfValue s
  | 'n' :: _ => do
    let ((), s) ← wordRest "ull".toList (s.drop 1)
    return (.null, s)
  | 't' :: _ => do
    let ((), s) ← wordRest "rue".toList (s.drop 1)
    return (.bool true, s)
  | 'f' :: _ => do
    let ((), s) ← wordRest "alse".toList (s.drop 1)
    return (.bool false, s)
  | '"' :: _ => do
    let (text, s) ← stringRest (s.drop 1)
    return (.string text, s)
  | '[' :: _ => match levels with
    | 0 => failAt .tooDeep s
    | levels + 1 => do
      let (vs, s) ← items (anyValue levels) s.text.length true (s.drop 1)
      return (.array vs, s)
  | '{' :: _ => match levels with
    | 0 => failAt .tooDeep s
    | levels + 1 => do
      let (ms, s) ← members (anyValue levels) s.text.length true (s.drop 1)
      return (.object ms, s)
  | '-' :: _ => do
    let (n, s) ← numberRest true (s.drop 1)
    return (.number n, s)
  | c :: _ =>
    if c.isDigit then do
      let (n, s) ← numberRest false s
      return (.number n, s)
    else failAt .noValue s

/-- The fault that the value at the start of a slice is not of the expected type. Of a list or an
object only the bracket is looked at. -/
def wrongType {α : Type} (expected : String) (s : Slice) : Except Trouble α :=
  match s.text with
  | '[' :: _ => failBefore (.wrongType .list expected) s
  | '{' :: _ => failBefore (.wrongType .object expected) s
  | _ => do
    let (v, s) ← anyValue 0 s
    let found := match v with
      | .bool b => .bool b
      | .number n => .number n
      | .string text => .string text
      | .array _ => .list
      | .object _ => .object
      | .null => .null
    failBefore (.wrongType found expected) s

/-- Reads a string. -/
def string : Reader String := fun s =>
  let s := skip s
  match s.text with
  | [] => failAt .endOfValue s
  | '"' :: _ => stringRest (s.drop 1)
  | _ => wrongType "a string" s

/-- Reads a list of strings. -/
def strings : Reader (List String) := fun s =>
  let s := skip s
  match s.text with
  | [] => failAt .endOfValue s
  | '[' :: _ => items string s.text.length true (s.drop 1)
  | _ => wrongType "a sequence" s

end LocaleAudit.Config
