import LocaleAudit.Component.Block
import LocaleAudit.Component.Markup

/-!
# LocaleAudit.Component.Template

Where translation keys appear in a template: in interpolations, in the values of directives and
bound attributes, in the `v-t` directive, and in the attributes of the translation components.
-/

namespace LocaleAudit.Component

open Text

/-- A part of a template that may use keys. -/
inductive TemplatePart
  /-- An expression whose calls count. -/
  | expression (code : Slice)
  /-- Statements whose calls count. -/
  | statements (code : Slice)
  /-- A key as it stands; its place is that of the attribute. -/
  | key (text : List Char) (place : Nat)
  /-- An expression that counts as a key if it is a literal. -/
  | keyExpression (code : Slice) (place : Nat)
  /-- An expression that counts as a key if it is a literal or an object with a literal path. -/
  | keyDirective (code : Slice) (place : Nat)
deriving Repr, DecidableEq

/-! ## attributes -/

/-- The tag is one of the translation components. -/
def isTranslationTag (name : List Char) : Bool :=
  ["i18n", "i18n-t", "i18nt"].contains (String.ofList (name.map Char.toLower))

/-- An attribute that holds the key of a translation component. -/
def keyAttributePart? (name : String) (place : Nat) (value : Slice) : Option TemplatePart :=
  if ["path", "keypath"].contains name then some (.key value.text place)
  else if [":path", ":keypath", "v-bind:path", "v-bind:keypath"].contains name then
    some (.keyExpression value place)
  else none

/-- The source of a loop: what follows the first ` in `, else the first ` of `, else everything. -/
def loopSource (value : Slice) : Slice :=
  match value.breakOn? " in ".toList with
  | some (_, source) => source
  | none => match value.breakOn? " of ".toList with
    | some (_, source) => source
    | none => value

/-- What a directive or a bound attribute holds. -/
def directivePart? (name : List Char) (place : Nat) (value : Slice) : Option TemplatePart :=
  let starts := fun (mark : String) => mark.toList.isPrefixOf name
  if name = "v-t".toList || starts "v-t." then some (.keyDirective value place)
  else if starts "#" || starts "v-slot" then none
  else if name = "v-for".toList then some (.expression (loopSource value))
  else if starts "@" || starts "v-on:" then some (.statements value)
  else if starts ":" || starts "v-" then some (.expression value)
  else none

/-- What an attribute of a tag holds. -/
def attributePart? (tag : List Char) (a : Attribute) : Option TemplatePart := do
  let value ← a.value
  let key :=
    if isTranslationTag tag then
      keyAttributePart? (String.ofList a.name.text) a.name.offset value
    else none
  key <|> directivePart? a.name.text a.name.offset value

/-! ## templates -/

/-- A template with its comments blanked. -/
def withoutComments (template : Slice) : Slice := ⟨template.offset, blankComments template.text⟩

/-- The parts of a template without comments: first the interpolations, then the attributes. -/
def partsOf (template : Slice) : List TemplatePart :=
  (interpolations template).map .expression ++
    (startTags template).flatMap fun tag => tag.attributes.filterMap (attributePart? tag.name)

end LocaleAudit.Component
