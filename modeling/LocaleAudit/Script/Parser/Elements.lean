import LocaleAudit.Script.Parser.Types

/-!
# LocaleAudit.Script.Parser.Elements

JSX elements. An element reads as a group of the expressions in its attributes and between its
tags, in order.
-/

namespace LocaleAudit.Script.Parser

variable [Grammar]

/-! ## names -/

/-- A part of a name, which may hold hyphens. -/
def elementNamePart : Parser String := do
  match ← current with
  | .word _ =>
    let c ← get
    let n := jsxNameLength c.here
    set (c.skip n)
    return String.ofList (c.here.take n)
  | _ => fail

/-- The name of an element, with a colon or with dots. -/
def elementName : Parser (List String) := do
  let first ← elementNamePart
  if ← eatMark .colon then
    return [first, ":", ← elementNamePart]
  let parts ← many do
    if ← eatMark .dot then return some (← elementNamePart)
    return none
  return first :: parts

/-! ## attributes -/

/-- An expression in braces, which can be missing; the closing brace is left. -/
def braced : Parser (List Tree) := do
  expectMark .braceL
  if ← isMark .braceR then return []
  let _ ← eatMark .spread
  return [← within ({ · with allowIn := true }) (goal .expression)]

/-- The value of an attribute; the current token is the equals sign in front of it. -/
def attributeValue : Parser (List Tree) := do
  let c ← get
  let (gap, _) := gapLength false c.rest
  match jsxStringLength (c.rest.drop gap) with
  | some n =>
    set (Cursor.behind (c.rest.drop (gap + n)) (c.restStart + gap + n))
    return []
  | none =>
    advance
    match ← current with
    | .mark .braceL =>
      let ts ← braced
      expectMark .braceR
      return ts
    | .mark .less =>
      let t ← goal .element
      advance
      return [t]
    | _ => fail

/-- An attribute of an element. -/
def elementAttribute : Parser (List Tree) := do
  if ← eatMark .braceL then
    expectMark .spread
    let e ← within ({ · with allowIn := true }) (goal .assignment)
    expectMark .braceR
    return [e]
  let _ ← elementNamePart
  if ← eatMark .colon then
    let _ ← elementNamePart
  if ← isMark .assign then attributeValue else return []

/-! ## content -/

/-- Goes behind the text that follows the current token, to the tag or brace that ends it. -/
def skipElementText : Parser Unit := modify fun c =>
  let n := jsxTextLength c.rest
  Cursor.pastGap 0 false (c.rest.drop n) (c.restStart + n)

/-- The expressions between the tags of an element, in parts; the current token is the mark that
ends the opening tag. The closing tag is left at its slash. -/
def elementContent : Parser (List (List Tree)) := do
  skipElementText
  many do
    if ← isMark .braceL then
      let ts ← braced
      unless ← isMark .braceR do fail
      skipElementText
      return some ts
    unless ← isMark .less do fail
    if ← peekIsMark .slash then
      advance
      return none
    let t ← within ({ · with inConditional := false }) (goal .element)
    skipElementText
    return some [t]

/-! ## elements -/

/-- An element up to the mark that ends its closing tag, which is left. -/
def openElement : Parser Tree := do
  expectMark .less
  if ← isMark .greater then
    let parts ← elementContent
    expectMark .slash
    unless ← isMark .greater do fail
    return .group .element parts.flatten
  let name ← elementName
  let ts ← if (← read).hasTypes && (← isMark .less) then typeArguments else pure plainType
  let attributes ← many do
    if ← isOneOf [.slash, .greater] then return none
    return some (← elementAttribute)
  if ← eatMark .slash then
    unless ← isMark .greater do fail
    return .group .element (ts :: attributes.flatten)
  let parts ← elementContent
  expectMark .slash
  unless (← elementName) == name do fail
  unless ← isMark .greater do fail
  return .group .element (ts :: attributes.flatten ++ parts.flatten)

end LocaleAudit.Script.Parser
