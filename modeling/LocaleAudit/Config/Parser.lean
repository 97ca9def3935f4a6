import LocaleAudit.Config.Basic
import LocaleAudit.Config.Reader

/-!
# LocaleAudit.Config.Parser

Reading a configuration. It is an object whose fields may be missing and must not be repeated, or a
list of the fields in order, of which the last ones may be missing.
-/

namespace LocaleAudit.Config

open Text Json LocaleAudit.Locale

/-! ## locale sources -/

/-- The layout of the given name. -/
def layoutOfName? (name : String) : Option Layout :=
  if name = "file" then some .file else if name = "key" then some .key else none

/-- The layout that a value stands for: its name, or an object with its name and null. -/
def layout? : Value → Option Layout
  | .string name => layoutOfName? name
  | .object [(name, .null)] => layoutOfName? name
  | _ => none

/-- The value of a member that an object has once, or the given value if it has none. -/
def single? (name : String) (missing : Option Value) (ms : List (String × Value)) : Option Value :=
  match ms.filter (·.1 = name) with
  | [] => missing
  | [(_, v)] => some v
  | _ => none

/-- The entry that a value stands for: a pattern, or a pattern and perhaps a layout as the members
of an object or the elements of a list. -/
def sourceOf? : Value → Option LocaleEntry
  | .string text => some (.pattern text)
  | .object ms => do
    guard (ms.all fun m => m.1 = "pattern" || m.1 = "localeKey")
    match ← single? "pattern" none ms with
    | .string text =>
      some (.source text (← layout? (← single? "localeKey" (some (.string "file")) ms)))
    | _ => none
  | .array [.string text] => some (.source text .file)
  | .array [.string text, layout] => do some (.source text (← layout? layout))
  | _ => none

/-- The locale sources that a value stands for: an entry, or else a list of entries. -/
def localeDir? (v : Value) : Option LocaleDir :=
  (sourceOf? v).map .one <|> match v with
    | .array vs => (vs.mapM sourceOf?).map .many
    | _ => none

/-- How many levels of lists and objects the locale sources may have. -/
def levelLimit : Nat := 126

/-- Reads the locale sources. -/
def readLocaleDir : Reader (Option LocaleDir) := fun s =>
  let s := skip s
  match s.text with
  | 'n' :: _ => do
    let ((), s) ← wordRest "ull".toList (s.drop 1)
    return (none, s)
  | _ => do
    let (v, s) ← anyValue levelLimit s
    match localeDir? v with
    | some d => return (some d, s)
    | none => .error (.raised (.noForm "LocaleDirConfig") s)

/-! ## fields -/

/-- A field of a configuration. -/
inductive Field
  | localeDir | src | extensions | ignores | translationFunctions
deriving Repr, DecidableEq

namespace Field

/-- All fields in order. -/
def all : List Field := [localeDir, src, extensions, ignores, translationFunctions]

/-- The name of a field. -/
def name : Field → String
  | localeDir => "localeDir"
  | src => "src"
  | extensions => "extensions"
  | ignores => "ignores"
  | translationFunctions => "translationFunctions"

/-- Reads the value of a field into a configuration. -/
def read (c : Config) : Field → Reader Config
  | localeDir, s => do
    let (d, s) ← readLocaleDir s
    return ({ c with localeDir := d }, s)
  | src, s => do
    let (text, s) ← string s
    return ({ c with src := text }, s)
  | extensions, s => do
    let (texts, s) ← strings s
    return ({ c with extensions := texts }, s)
  | ignores, s => do
    let (texts, s) ← strings s
    return ({ c with ignores := texts }, s)
  | translationFunctions, s => do
    let (texts, s) ← strings s
    return ({ c with translationFunctions := texts }, s)

end Field

/-- Reads at most the given number of members into a configuration in which some fields are set. -/
def fieldMembers (c : Config) (set : List Field) : Nat → Bool → Reader Config
  | 0, _, s => failAt .endOfObject s
  | left + 1, first, s => do
    match ← nextName first s with
    | none => return (c, (skip s).drop 1)
    | some s =>
      let (name, s) ← stringRest s
      match Field.all.find? (·.name = name) with
      | none => .error (.raised (.unknownField name (Field.all.map Field.name)) s)
      | some f =>
        if set.contains f then .error (.raised (.duplicateField name) s)
        else
          let ((), s) ← colon s
          let (c, s) ← f.read c s
          fieldMembers c (f :: set) left false s

/-- Reads the elements of a list into the given fields of a configuration. -/
def fieldItems (c : Config) : List Field → Bool → Reader Config
  | [], _, s =>
    let s := skip s
    match s.text with
    | [] => failAt .endOfList s
    | ']' :: _ => .ok (c, s.drop 1)
    | ',' :: _ =>
      let s := skip (s.drop 1)
      match s.text with
      | ']' :: _ => failAt .trailingComma s
      | _ => failAt .trailing s
    | _ => failAt .trailing s
  | f :: fs, first, s => do
    match ← nextItem first s with
    | none => return (c, (skip s).drop 1)
    | some s =>
      let (c, s) ← f.read c s
      fieldItems c fs false s

/-! ## configurations -/

/-- Where a cause shows that was raised in an object: behind its closing bracket, or in front of
what stands in its place. -/
def afterObject (rest : Slice) : Nat :=
  let s := skip rest
  match s.text with
  | '}' :: _ => s.offset + 1
  | _ => s.offset

/-- Where a cause shows that was raised in a list. -/
def afterList (rest : Slice) : Nat :=
  let s := skip rest
  match s.text with
  | ']' :: _ => s.offset + 1
  | ',' :: _ => (skip (s.drop 1)).offset
  | _ => s.offset

/-- Reading with the place of a raised cause settled. -/
def settle {α : Type} (place : Slice → Nat) : Except Trouble α → Except Trouble α
  | .error (.raised cause rest) => .error (.fault ⟨cause, place rest⟩)
  | r => r

/-- Reads a configuration. -/
def config : Reader Config := fun s =>
  let s := skip s
  match s.text with
  | [] => failAt .endOfValue s
  | '{' :: _ => settle afterObject (fieldMembers {} [] s.text.length true (s.drop 1))
  | '[' :: _ => settle afterList (fieldItems {} Field.all true (s.drop 1))
  | _ => wrongType "struct Config" s

/-- The configuration that a text stands for. -/
def parse (text : List Char) : Except Fault Config :=
  match config ⟨0, text⟩ with
  | .ok (c, rest) =>
    let rest := skip rest
    if rest.text.isEmpty then .ok c else .error ⟨.trailing, rest.offset + 1⟩
  | .error (.fault f) => .error f
  | .error (.raised cause rest) => .error ⟨cause, rest.offset⟩

end LocaleAudit.Config
