import LocaleAudit.Component.Template
import LocaleAudit.Script.Keys

/-!
# LocaleAudit.Component.Keys

The keys that a single-file component uses. Code is parsed behind as many newlines and spaces as
stand for the text in front of it, so that the places found in it are places in the component.
A malformed script makes the component malformed; malformed code in a template is passed over.
-/

namespace LocaleAudit.Component

open Text

/-! ## code in its place -/

/-- The newlines and spaces that lead to a place. -/
def padding (p : Position) : List Char :=
  List.replicate (p.line - 1) '\n' ++ List.replicate (p.col - 1) ' '

/-- Code behind the padding that leads to its place in a text. -/
def padded (text : List Char) (code : Slice) : List Char :=
  padding (position text code.offset) ++ code.text

/-! ## the keys of parts -/

/-- The key of a `v-t` directive: a literal, or the first literal `path` of an object. -/
def directiveKey? (t : Script.Tree) : Option String :=
  t.staticString? <|> match t with
    | .group .object properties => properties.findSome? fun
      | .property (some "path") _ value => value.staticString?
      | _ => none
    | _ => none

/-- The usages in the text of a component. -/
structure Reader where
  /-- The translation functions. -/
  functions : List String
  /-- The file, as it is shown. -/
  file : String
  /-- The text of the file. -/
  text : List Char

namespace Reader

/-- The usages in a script. -/
def script? (r : Reader) (dialect : Script.Dialect) (code : Slice) : Option (List Usage) := do
  let code := Script.withoutMark (padded r.text code)
  some (Script.usagesOf r.functions r.file r.text code (← Script.parseModule dialect code))

/-- An expression of a template. -/
def expression? (r : Reader) (code : Slice) : Option Script.Tree :=
  Script.parseExpression (Script.withoutMark (padded r.text code))

/-- The usage of a key that stands at an offset. -/
def usage (r : Reader) (place : Nat) (key : String) : Usage :=
  ⟨key, SourceContext.at r.file r.text (position r.text place)⟩

/-- The usages in a part of a template. -/
def part (r : Reader) : TemplatePart → List Usage
  | .expression code => match r.expression? code with
    | some t => Script.usagesOf r.functions r.file r.text
        (Script.withoutMark (padded r.text code)) t
    | none => []
  | .statements code => (r.script? .ts code).getD []
  | .key key place => [r.usage place (String.ofList key)]
  | .keyExpression code place =>
    ((r.expression? code).bind (·.staticString?)).toList.map (r.usage place)
  | .keyDirective code place => ((r.expression? code).bind directiveKey?).toList.map (r.usage place)

end Reader

/-! ## usages -/

/-- The first place is not behind the second. -/
def notBehind (p q : Position) : Bool := p.line < q.line || (p.line = q.line && p.col ≤ q.col)

/-- The usages in a component in the order of their places, or nothing if a script is malformed. -/
def collectUsages (functions : List String) (file : String) (text : List Char) :
    Option (List Usage) := do
  let r : Reader := ⟨functions, file, text⟩
  let inScripts ← (scriptBlocks text).mapM fun b => r.script? (.ofLangAttribute b.lang) b.content
  let inTemplate := match templateBlock? text with
    | some b => (partsOf (withoutComments b.content)).flatMap r.part
    | none => []
  some ((inScripts.flatten ++ inTemplate).mergeSort fun u v =>
    notBehind u.context.position v.context.position)

end LocaleAudit.Component
