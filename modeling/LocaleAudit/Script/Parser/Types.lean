import LocaleAudit.Script.Parser.Template

/-!
# LocaleAudit.Script.Parser.Types

Types. A type reads as a group of the expressions in it, which are few: computed names of members
and the defaults of parameters.
-/

namespace LocaleAudit.Script.Parser

variable [Grammar]

/-! ## groups -/

/-- A type with the given parts. -/
def typeOf (parts : List Tree) : Tree :=
  .group .typeExpr (parts.filter fun t => !(t.isGroup .typeExpr && t.children.isEmpty))

/-- A type without parts. -/
def plainType : Tree := .leaf .typeExpr

/-! ## modifiers -/

/-- The token behind a modifier goes on with what it modifies. -/
def followsModifier : Parser Bool := do
  advance
  if ← newlineBefore then return false
  match ← current with
  | .word _ | .privateName | .string _ | .number => return true
  | .mark m => return [.bracketL, .braceL, .star, .spread].contains m
  | _ => return false

/-- Takes one of the given modifiers if it modifies what follows, and says which. -/
def modifier (allowed : List String) : Parser (Option String) := do
  unless (← read).hasTypes do return none
  match ← current with
  | .word w =>
    if allowed.contains w && (← lookAhead followsModifier) then
      advance
      return some w
    return none
  | _ => return none

/-- The modifiers of parameters and members. -/
def memberModifiers : List String :=
  ["public", "protected", "private", "readonly", "abstract", "override", "static", "declare",
   "accessor"]

/-- Takes any modifiers of a parameter or a property. -/
def anyModifiers : Parser Unit := do
  let _ ← many (modifier ["public", "protected", "private", "readonly"])

/-! ## parameters and arguments -/

/-- A parameter of a generic construct. -/
def typeParameter : Parser Tree := do
  let _ ← many (modifier (memberModifiers ++ ["const", "in", "out"]))
  let _ ← anyWord
  let bound ← if ← eatWord "extends" then goal .type else pure plainType
  let default ← if ← eatMark .assign then goal .type else pure plainType
  return typeOf [bound, default]

/-- The parameters of a generic construct, in angle brackets. -/
def typeParameters : Parser Tree := do
  expectMark .less
  let ps ← commaList .greater typeParameter
  expectMark .greater
  return typeOf ps

/-- The parameters of a generic construct, if there are any. -/
def typeParametersIfAny : Parser Tree := do
  if (← read).hasTypes && (← isMark .less) then typeParameters else return plainType

/-- The types that a generic construct is applied to, in angle brackets. -/
def typeArguments : Parser Tree := do
  narrowLess
  expectMark .less
  let ts ← commaList .greater (goal .type)
  expectMark .greater
  return typeOf ts

/-! ## annotations -/

/-- The type behind a colon. -/
def annotation : Parser Tree := do
  expectMark .colon
  goal .type

/-- The type behind a colon, if there is a colon. -/
def annotationIfAny : Parser Tree := do
  if (← read).hasTypes && (← isMark .colon) then annotation else return plainType

/-- The type of a result behind the given mark, which can be a statement on a parameter. -/
def resultType (before : Mark) : Parser Tree := do
  expectMark before
  let asserts ← do
    if (← isWord "asserts") && (← peekIsName) then
      advance
      pure true
    else pure false
  let hasIs ← do if ← isName then peekIsWord "is" else pure false
  if asserts || hasIs then
    let _ ← anyWord
    if hasIs then
      advance
      goal .type
    else return plainType
  else goal .type

/-! ## names -/

/-- A name with dots, whose later parts can be any words. -/
def entityName : Parser Unit := do
  let _ ← anyWord
  let _ ← many do
    if ← eatMark .dot then
      let _ ← anyWord
      return some ()
    return none

/-- The type arguments on the same line, if there are any. -/
def typeArgumentsOnLine : Parser Tree := do
  if !(← newlineBefore) && (← isOneOf [.less, .shiftLeft]) then typeArguments else return plainType

/-- A reference to a type by name. -/
def typeReference : Parser Tree := do
  entityName
  typeArgumentsOnLine

/-- A type of another module. -/
def importType : Parser Tree := do
  expectWord "import"
  expectMark .parenL
  stringLiteral
  if ← eatMark .comma then
    unless ← isMark .parenR do
      let _ ← goal .assignment
      let _ ← eatMark .comma
  expectMark .parenR
  if ← eatMark .dot then entityName
  typeArgumentsOnLine

/-- The type of a value. -/
def typeQuery : Parser Tree := do
  expectWord "typeof"
  if ← isWord "import" then importType
  else
    entityName
    typeArgumentsOnLine

/-! ## members -/

/-- The end of a member of an object type. -/
def memberEnd : Parser Unit := do
  unless ← eatMark .comma do expectSemicolon

/-- The name of a member, as its parts. -/
def memberName : Parser (List Tree) := do
  match ← current with
  | .word _ | .string _ | .number | .privateName =>
    advance
    return []
  | .mark .bracketL =>
    advance
    let e ← within ({ · with allowIn := true }) (goal .assignment)
    expectMark .bracketR
    return [e]
  | _ => fail

/-- An index signature starts here. -/
def startsIndexSignature : Parser Bool := lookAhead do
  expectMark .bracketL
  let _ ← anyWord
  isMark .colon

/-- An index signature, if one starts here. -/
def indexSignature? : Parser (Option Tree) := do
  unless (← isMark .bracketL) && (← startsIndexSignature) do return none
  advance
  let _ ← anyWord
  let k ← annotation
  expectMark .bracketR
  let v ← annotationIfAny
  memberEnd
  return some (typeOf [k, v])

/-- A signature of a call: type parameters, parameters and the result. -/
def signature : Parser Tree := do
  let ts ← typeParametersIfAny
  expectMark .parenL
  let ps ← goal .parameters
  expectMark .parenR
  let r ← if ← isMark .colon then resultType .colon else pure plainType
  return typeOf [ps, r, ts]

/-- An accessor in an object type. -/
def accessorSignature : Parser Tree := do
  let isGet ← do
    if ← eatWord "get" then pure true
    else
      expectWord "set"
      pure false
  let name ← memberName
  expectMark .parenL
  let ps ← if isGet then pure plainType else goal .parameters
  expectMark .parenR
  let r ← if isGet then annotationIfAny else pure plainType
  memberEnd
  return typeOf (name ++ [ps, r])

/-- A property or a method in an object type. -/
def propertySignature : Parser Tree := do
  let name ← memberName
  let _ ← eatMark .question
  if ← isOneOf [.parenL, .less] then
    let s ← signature
    memberEnd
    return typeOf (name ++ [s])
  else
    let t ← annotationIfAny
    memberEnd
    return typeOf (name ++ [t])

/-- A member of an object type. -/
def typeMember : Parser Tree := do
  if ← isOneOf [.parenL, .less] then
    let s ← signature
    memberEnd
    return s
  if ← isWord "new" then
    if ← lookAhead do advance; isOneOf [.parenL, .less] then
      advance
      let s ← signature
      memberEnd
      return s
  let _ ← modifier ["readonly"]
  match ← indexSignature? with
  | some t => return t
  | none =>
    match ← attempt accessorSignature with
    | some t => return t
    | none => propertySignature

/-- The members of an object type, in braces. -/
def objectTypeMembers : Parser Tree := do
  expectMark .braceL
  return typeOf (← itemsUntil .braceR typeMember)

/-- A mapped type starts here. -/
def startsMappedType : Parser Bool := lookAhead do
  expectMark .braceL
  if ← isOneOf [.plus, .minus] then
    advance
    isWord "readonly"
  else
    let _ ← eatWord "readonly"
    unless ← eatMark .bracketL do fail
    let _ ← anyWord
    isWord "in"

/-- A modifier of a mapped type, perhaps signed. -/
def mappedModifier (take : Parser Bool) (taken : Parser Unit) : Parser Unit := do
  if ← isOneOf [.plus, .minus] then
    advance
    taken
  else
    let _ ← take

/-- A mapped type. -/
def mappedType : Parser Tree := do
  expectMark .braceL
  mappedModifier (eatWord "readonly") (expectWord "readonly")
  expectMark .bracketL
  let _ ← anyWord
  expectWord "in"
  let keys ← goal .type
  let renamed ← if ← eatWord "as" then goal .type else pure plainType
  expectMark .bracketR
  mappedModifier (eatMark .question) (expectMark .question)
  let value ← if ← eatMark .colon then goal .type else pure plainType
  unless ← eatMark .comma do
    let _ ← eatSemicolon
  expectMark .braceR
  return typeOf [keys, renamed, value]

/-! ## tuples -/

/-- The label of an element of a tuple. -/
def tupleLabel : Parser Unit := do
  let _ ← eatMark .spread
  let _ ← anyWord
  let _ ← eatMark .question
  expectMark .colon

/-- An element of a tuple. -/
def tupleElement : Parser Tree := do
  let _ ← attempt tupleLabel
  let _ ← eatMark .spread
  let t ← goal .type
  let _ ← eatMark .question
  return t

/-! ## functions -/

/-- The start of a parameter. -/
def parameterStart : Parser Bool := do
  anyModifiers
  match ← current with
  | .word _ =>
    advance
    return true
  | .mark .braceL | .mark .bracketL =>
    let _ ← goal (.binding true)
    return true
  | _ => return false

/-- What stands in parentheses here can only be parameters. -/
def startsFunctionType : Parser Bool := do
  if ← isMark .less then return true
  unless ← isMark .parenL do return false
  lookAhead do
    advance
    if ← isOneOf [.parenR, .spread] then return true
    if ← parameterStart then
      if ← isOneOf [.colon, .comma, .question, .assign] then return true
      if ← eatMark .parenR then
        if ← isMark .arrow then return true
    return false

/-- The type of a function or, behind `new`, of a constructor. -/
def functionType : Parser Tree := do
  let ts ← typeParametersIfAny
  expectMark .parenL
  let ps ← goal .parameters
  expectMark .parenR
  let r ← resultType .arrow
  return typeOf [ps, ts, r]

/-! ## types -/

/-- A type that binds most tightly. -/
def simpleType : Parser Tree := do
  match ← current with
  | .word "import" => importType
  | .word "typeof" => typeQuery
  | .word "this" =>
    advance
    if !(← newlineBefore) && (← isWord "is") then
      advance
      goal .type
    else return plainType
  | .word "asserts" =>
    if ← peekIsWord "this" then
      advance
      advance
      if ← eatWord "is" then goal .type else return plainType
    else typeReference
  | .word w =>
    if ["void", "null", "true", "false"].contains w then
      advance
      return plainType
    else if reservedWords.contains w then fail
    else typeReference
  | .string _ | .number =>
    advance
    return plainType
  | .mark .minus =>
    advance
    match ← current with
    | .number =>
      advance
      return plainType
    | _ => fail
  | .mark .braceL => do
    if ← startsMappedType then mappedType else objectTypeMembers
  | .mark .bracketL =>
    advance
    let ts ← commaList .bracketR tupleElement
    expectMark .bracketR
    return typeOf ts
  | .mark .parenL =>
    advance
    let t ← goal .type
    expectMark .parenR
    return t
  | .backquote =>
    let (_, ts) ← templateParts (goal .type)
    return typeOf ts
  | _ => fail

/-- A type with the brackets behind it. -/
def arrayType : Parser Tree := do
  let t ← simpleType
  let indices ← many do
    if ← newlineBefore then return none
    unless ← eatMark .bracketL do return none
    if ← eatMark .bracketR then return some plainType
    let i ← goal .type
    expectMark .bracketR
    return some i
  return typeOf (t :: indices)

/-- A type that a conditional type can test against. -/
def inferredType : Parser Tree := do
  expectWord "infer"
  let _ ← anyWord
  let bound ← attempt do
    expectWord "extends"
    let t ← within ({ · with inExtends := true }) (goal .typeOperator)
    if !(← read).inExtends && (← isMark .question) then fail
    return t
  return typeOf bound.toList

/-- A type behind operators. -/
def typeOperator : Parser Tree := do
  match ← current with
  | .word "keyof" | .word "unique" | .word "readonly" =>
    advance
    goal .typeOperator
  | .word "infer" => inferredType
  | _ => arrayType

/-- Types joined by an operator, which may also stand in front of the first. -/
def joinedTypes (operator : Mark) (item : Parser Tree) : Parser Tree := do
  let _ ← eatMark operator
  let t ← item
  let ts ← many do
    if ← eatMark operator then return some (← item)
    return none
  return typeOf (t :: ts)

/-- A type that is not conditional. -/
def plainlyType : Parser Tree := do
  if ← startsFunctionType then functionType
  else if ← isWord "new" then
    advance
    functionType
  else if (← isWord "abstract") && (← peek).1 == .word "new" then
    advance
    advance
    functionType
  else joinedTypes .bitOr (joinedTypes .bitAnd (goal .typeOperator))

/-- A type. -/
def anyType : Parser Tree := do
  let t ← within ({ · with inExtends := false }) plainlyType
  if (← newlineBefore) || !(← isWord "extends") then return t
  advance
  let bound ← within ({ · with inExtends := true }) plainlyType
  expectMark .question
  let yes ← goal .type
  expectMark .colon
  let no ← goal .type
  return typeOf [t, bound, yes, no]

/-! ## type arguments of expressions -/

/-- The token can start an expression. -/
def startsExpression : Parser Bool := do
  match ← current with
  | .word w =>
    return !(["in", "instanceof", "as", "satisfies", "break", "case", "catch", "continue",
      "debugger", "default", "do", "else", "export", "extends", "finally", "for", "if", "return",
      "switch", "throw", "try", "var", "const", "while", "with", "enum"].contains w)
  | .privateName | .number | .string _ | .backquote => return true
  | .mark m =>
    return [.braceL, .parenL, .bracketL, .bang, .tilde, .plus, .minus, .increment, .decrement,
      .slash, .slashAssign, .less, .atSign].contains m
  | _ => return false

/-- Type arguments behind an expression that is not called, if they are that: what follows must not
be the operand of a comparison. -/
def instantiation? : Parser (Option Tree) := do
  unless (← read).hasTypes && (← isOneOf [.less, .shiftLeft]) do return none
  attempt do
    let ts ← typeArguments
    if ← isOneOf [.parenL, .less, .greater, .plus, .minus] then fail
    if (← current) == .backquote then fail
    if ← newlineBefore then return ts
    let isOperator := match ← current with
      | .mark m => m.precedence?.isSome
      | .word w => w == "in" || w == "instanceof" || w == "as" || w == "satisfies"
      | _ => false
    if isOperator || !(← startsExpression) then return ts
    fail

end LocaleAudit.Script.Parser
