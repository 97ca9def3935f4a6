import LocaleAudit.Script.Parser.Types

/-!
# LocaleAudit.Script.Parser.Patterns

Patterns: what parameters, declarations and assignments bind. A pattern behind a declaring word is
read as such; one in an arrow function or an assignment has been read as an expression before it is
known to be a pattern, and `Tree.asPattern?` takes it for one.
-/

namespace LocaleAudit.Script

/-! ## expressions taken for patterns -/

/-- Where an expression is taken for a pattern. -/
inductive PatternPlace
  /-- At the top of the parameters of an arrow function. -/
  | parameter
  /-- Inside a pattern among the parameters of an arrow function. -/
  | inParameter
  /-- Inside a pattern on the left of an assignment. -/
  | inTarget
deriving DecidableEq

/-- The place of the parts of a pattern. -/
def PatternPlace.inner : PatternPlace → PatternPlace
  | parameter | inParameter => inParameter
  | inTarget => inTarget

namespace Tree

/-- The expression may stand as it is in a pattern on the left of an assignment. -/
def isTargetPart : Tree → Bool
  | member chained _ _ | call chained _ _ _ _ => !chained
  | group (.privateMember chained) _ | group (.computedMember chained) _ => !chained
  | string _ | template _ _ | paren _ | ident _ => true
  | group c _ =>
    [Construct.superMember, .new true, .new false, .literal, .function, .classBody,
     .asType].contains c
  | property _ _ _ => false

/-- The number of the elements of an array without the holes at its end. -/
def withoutEndHoles (elements : List Tree) : Nat :=
  (elements.reverse.dropWhile (·.isGroup .hole)).length

mutual

/-- An expression taken for a pattern. Parts that cannot be patterns are left out, except a method,
for which there is no pattern at all. -/
def asPattern? (place : PatternPlace) : Tree → Option Tree
  | ident name => some (ident name)
  | group (.assignment true) [target, value] => do
    some (group .pattern [← asPattern? place target, value])
  | group .pattern parts => some (group .pattern parts)
  | group .object parts => do some (group .pattern (← asProperties? place.inner parts))
  | group .array parts => do
    some (group .pattern (← asElements? place.inner (withoutEndHoles parts) parts))
  | member chained object name =>
    if place = .inTarget && !chained then some (member chained object name)
    else some (leaf .invalid)
  | call chained start callee arguments types =>
    if place = .inTarget && !chained then some (call chained start callee arguments types)
    else some (leaf .invalid)
  | t => if place = .inTarget && t.isTargetPart then some t else some (leaf .invalid)

/-- The properties of an object taken for those of a pattern. -/
def asProperties? (place : PatternPlace) : List Tree → Option (List Tree)
  | [] => some []
  | property name key value :: ps => do
    some (property name key (← asPattern? place value) :: (← asProperties? place ps))
  | group .spread [inner] :: ps => do
    let inner ← if place = .inTarget then asPattern? place inner else match inner with
      | ident name => some (ident name)
      | _ => some (leaf .invalid)
    some (inner :: (← asProperties? place ps))
  | group .shorthand parts :: ps => do
    some (group .shorthand parts :: (← asProperties? place ps))
  | group .shorthandDefault parts :: ps => do
    some (group .shorthandDefault parts :: (← asProperties? place ps))
  | _ :: _ => none

/-- The elements of an array taken for those of a pattern, given the number of those in front of
the holes at the end. Only the last of these can be the rest, and the others of this kind are left
out. -/
def asElements? (place : PatternPlace) : Nat → List Tree → Option (List Tree)
  | _, [] => some []
  | 0, _ :: es => asElements? place 0 es
  | n + 1, group .hole parts :: es => do
    some (group .hole parts :: (← asElements? place n es))
  | n + 1, group .spread [inner] :: es => do
    if n = 0 && es.isEmpty then some [← asPattern? place inner]
    else asElements? place n es
  | n + 1, e :: es => do some ((← asPattern? place e) :: (← asElements? place n es))

end

/-- The expression can stand alone on the left of an assignment. -/
def isSimpleTarget : Tree → Bool
  | ident _ | paren _ | member _ _ _ => true
  | call chained _ _ _ _ => chained
  | group (.privateMember _) _ | group (.computedMember _) _ => true
  | group c _ =>
    [Construct.superMember, .asType, .satisfiesType, .nonNull, .typeAssertion,
     .instantiation].contains c
  | _ => false

/-- An expression taken for the left side of an assignment by the plain sign. -/
def asTarget? : Tree → Option Tree
  | group .object parts => asPattern? .inTarget (group .object parts)
  | group .array parts => asPattern? .inTarget (group .array parts)
  | t => if t.isSimpleTarget then some t else none

end Tree

namespace Parser

variable [Grammar]

/-! ## declared patterns -/

/-- A name that is declared. -/
def bindingName (letAllowed : Bool) : Parser Tree := do
  match ← current with
  | .word w =>
    let s ← read
    if w == "let" && !letAllowed then fail
    if w == "await" && (s.inAsync || s.strict) then fail
    if w == "this" && !s.hasTypes then fail
    if reservedWords.contains w && w != "this" && w != "enum" then fail
    advance
    return .ident w
  | _ => fail

/-- A pattern with a default. -/
def bindingElement : Parser Tree := do
  let p ← goal (.binding true)
  if ← eatMark .assign then
    let e ← within ({ · with allowIn := true }) (goal .assignment)
    return .group .pattern [p, e]
  return p

/-- A pattern for an array. -/
def arrayPattern : Parser Tree := do
  expectMark .bracketL
  let ps ← itemsUntil .bracketR do
    if ← eatMark .comma then return .leaf .hole
    let p ← if ← eatMark .spread then goal (.binding true) else bindingElement
    unless ← isMark .bracketR do expectMark .comma
    return p
  return .group .pattern ps

/-- The name of a property: its text if that is fixed, and its parts. -/
def propertyName : Parser (Option String × List Tree) := do
  match ← current with
  | .word w =>
    advance
    return (some w, [])
  | .string value =>
    advance
    return (value, [])
  | .number =>
    advance
    return (none, [])
  | .mark .bracketL =>
    advance
    let e ← within ({ · with allowIn := true }) (goal .assignment)
    let es ← many do
      unless (← read).hasTypes && (← isMark .comma) do return none
      advance
      return some (← goal .assignment)
    expectMark .bracketR
    return (none, e :: es)
  | _ => fail

/-- A property in a pattern for an object. -/
def patternProperty : Parser Tree := do
  if ← eatMark .spread then goal (.binding true)
  else
    let isWordName ← atWord
    let (name, key) ← propertyName
    if ← eatMark .colon then return .property name key (← bindingElement)
    unless isWordName do fail
    if ← eatMark .assign then
      let e ← within ({ · with allowIn := true }) (goal .assignment)
      return .group .shorthandDefault [e]
    return .leaf .shorthand

/-- A pattern for an object. -/
def objectPattern : Parser Tree := do
  expectMark .braceL
  let ps ← commaList .braceR patternProperty
  expectMark .braceR
  return .group .pattern ps

/-- A declared pattern. -/
def bindingPattern (letAllowed : Bool) : Parser Tree := do
  match ← current with
  | .mark .bracketL => arrayPattern
  | .mark .braceL => objectPattern
  | _ => bindingName letAllowed

/-! ## parameters -/

/-- A parameter of a function. -/
def parameter : Parser Tree := do
  if ← eatMark .spread then
    let p ← goal (.binding true)
    let e ← if ← eatMark .assign then goal .assignment else pure plainType
    let t ← annotationIfAny
    if (← read).hasTypes then
      let _ ← eatMark .question
    return .group .pattern [p, e, t]
  else
    let _ ← many (modifier ["public", "protected", "private", "readonly", "override"])
    let p ← goal (.binding true)
    if (← read).hasTypes then
      let _ ← eatMark .question
    let t ← annotationIfAny
    let e ← if ← eatMark .assign then goal .assignment else pure plainType
    return .group .pattern [p, t, e]

/-- The parameters of a function, up to the closing parenthesis. -/
def parameters : Parser Tree := return .group .pattern (← commaList .parenR parameter)

end Parser

end LocaleAudit.Script
