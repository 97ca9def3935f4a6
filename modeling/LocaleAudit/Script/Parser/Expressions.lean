import LocaleAudit.Script.Parser.Elements
import LocaleAudit.Script.Parser.Functions

/-!
# LocaleAudit.Script.Parser.Expressions

Expressions, from primary ones to assignments. Parentheses are read as a list of expressions first;
an arrow behind them, or a type annotation in them, makes them the parameters of a function.
-/

namespace LocaleAudit.Script.Parser

variable [Grammar]

/-! ## lists -/

/-- The scope between brackets: `in` is an operator, and no colon is awaited. -/
def bracketScope (s : Scope) : Scope := { s with allowIn := true, colonExpected := false }

/-- An expression, or the spread of one. -/
def expressionOrSpread : Parser Tree := do
  if ← eatMark .spread then return .group .spread [← goal .assignment]
  goal .assignment

/-- The arguments of a call, in parentheses. -/
def callArguments : Parser (List Tree) := within bracketScope do
  expectMark .parenL
  let es ← commaList .parenR expressionOrSpread
  expectMark .parenR
  return es

/-- An array. -/
def arrayLiteral : Parser Tree := within ({ · with allowIn := true }) do
  expectMark .bracketL
  let es ← itemsUntil .bracketR do
    if ← eatMark .comma then return .leaf .hole
    let e ← expressionOrSpread
    unless ← isMark .bracketR do expectMark .comma
    return e
  return .group .array es

/-! ## objects -/

/-- The scope of a method of an object. -/
def objectMethod (key : List Tree) (isAsync isGenerator : Bool) : Parser Tree := do
  let f ← within ({ · with allowSuper := true }) (functionRest isAsync isGenerator)
  return .group .method (key ++ [f])

/-- A property of an object. -/
def objectProperty : Parser Tree := do
  if ← eatMark .spread then
    return .group .spread [← within ({ · with allowIn := true }) (goal .assignment)]
  if ← eatMark .star then
    let (_, key) ← propertyName
    return ← objectMethod key false true
  anyModifiers
  let isWordName ← atWord
  let (name, key) ← propertyName
  if ← eatMark .colon then
    return .property name key (← within ({ · with allowIn := true }) (goal .assignment))
  if ← atMethodStart then return ← objectMethod key false false
  unless isWordName do fail
  let _ ← eatMark .question
  if ← eatMark .assign then
    return .group .shorthandDefault [← within ({ · with allowIn := true }) (goal .assignment)]
  if ← isOneOf [.comma, .braceR] then return .leaf .shorthand
  if name == some "get" || name == some "set" then
    let (_, key) ← propertyName
    return ← objectMethod key false false
  if name == some "async" then
    let isGenerator ← eatMark .star
    let (_, key) ← propertyName
    return ← objectMethod key true isGenerator
  fail

/-- An object. -/
def objectLiteral : Parser Tree := do
  expectMark .braceL
  let ps ← commaList .braceR objectProperty
  expectMark .braceR
  return .group .object ps

/-! ## operators -/

/-- How tightly the current token binds as a binary operator. -/
def operatorPrecedence? : Parser (Option Nat) := do
  match ← current with
  | .mark m => return m.precedence?
  | .word "instanceof" => return some 7
  | .word "in" => return if (← read).allowIn then some 7 else none
  | _ => return none

/-- What follows an operand, for operators that bind more tightly than the given number. -/
def binaryRest (left : Tree) (binding : Nat) : Parser Tree := do
  if (← read).hasTypes && !(← newlineBefore) && binding < 7 then
    if ← eatWord "as" then
      let node ← do
        if ← eatWord "const" then pure (Tree.group .typeAssertion [left])
        else pure (Tree.group .asType [left, ← goal .type])
      return ← goal (.binaryRest node binding)
    if ← eatWord "satisfies" then
      return ← goal (.binaryRest (.group .satisfiesType [left, ← goal .type]) binding)
  widenGreater
  match ← operatorPrecedence? with
  | none => return left
  | some p =>
    if p ≤ binding then return left
    let isPower ← isMark .power
    advance
    if isPower && (left.isGroup .unary || left.isGroup .await) then fail
    let operand ← goal .unary
    let right ← goal (.binaryRest operand (if isPower then p - 1 else p))
    goal (.binaryRest (.group .binary [left, right]) binding)

/-- A binary expression. An operand that is missing in front of an operator is passed over. -/
def binaryExpression : Parser Tree := do
  match ← recover (goal .unary) with
  | some left => if left.isGroup .arrow then return left else binaryRest left 0
  | none =>
    widenGreater
    let isOperator := match ← current with
      | .mark m => m.precedence?.isSome
      | .word w => w == "in" || w == "instanceof"
      | _ => false
    if isOperator then binaryRest (.leaf .invalid) 0 else fail

/-- The branches of a conditional expression, from the question mark on. -/
def branches (test : Tree) : Parser Tree := do
  expectMark .question
  let yes ← within ({ · with inConditional := true, colonExpected := true, allowIn := true })
    (goal .assignment)
  expectMark .colon
  let no ← within ({ · with inConditional := true, colonExpected := false }) (goal .assignment)
  return .group .conditional [test, yes, no]

/-- A conditional expression. -/
def conditional : Parser Tree := do
  let test ← binaryExpression
  if test.isGroup .arrow then return test
  if ← isMark .question then branches test else return test

/-! ## assignments -/

/-- An assignment to what has been read, if a sign of assignment follows. -/
def assignmentTo (left : Tree) : Parser Tree := do
  match ← current with
  | .mark .assign =>
    match left.asTarget? with
    | some target =>
      advance
      return .group (.assignment true) [target, ← goal .assignment]
    | none => fail
  | .mark .compoundAssign | .mark .slashAssign =>
    unless left.isSimpleTarget do fail
    advance
    return .group (.assignment false) [left, ← goal .assignment]
  | _ => return left

/-- A `yield`, with or without an operand. -/
def yieldExpression : Parser Tree := do
  advance
  if ← canEndStatement then return .leaf .yield
  if !(← isMark .star) && !(← startsExpression) then return .leaf .yield
  let _ ← eatMark .star
  return .group .yield [← goal .assignment]

/-- An assignment that does not start with type parameters. -/
def plainAssignment : Parser Tree := do
  if (← read).inGenerator && (← isWord "yield") then return ← yieldExpression
  let start ← here
  let left ← within ({ · with arrowStart := some start }) conditional
  match left with
  | .group .arrow _ | .group .conditional _ | .group .binary _ | .group .unary _
  | .group .update _ => return left
  | _ => assignmentTo left

/-- An arrow function with type parameters. -/
def genericArrow : Parser Tree := do
  let ts ← typeParameters
  let f ← plainAssignment
  unless f.isGroup .arrow do fail
  return .group .arrow [f, ts]

/-- An assignment. An angle bracket may open an element or type parameters; the first reading that
fits is taken. -/
def assignment : Parser Tree := do
  if (← read).hasTypes && (← isMark .less) then
    if (← read).hasJsx then
      match ← attempt plainAssignment with
      | some t => return t
      | none => pure ()
    match ← attempt genericArrow with
    | some t => return t
    | none => plainAssignment
  else plainAssignment

/-- Expressions separated by commas. -/
def expression : Parser Tree := do
  let e ← goal .assignment
  let es ← many do
    if ← eatMark .comma then return some (← goal .assignment)
    return none
  return if es.isEmpty then e else .group .sequence (e :: es)

/-! ## parentheses -/

/-- A parameter with a type annotation, given the expression that has been read for it; the current
token is the colon or, after a question mark, what follows that. -/
def annotatedParameter (e : Tree) : Parser Tree := do
  match e.asPattern? .parameter with
  | none => fail
  | some p =>
    let t ← annotationIfAny
    let value ← if ← eatMark .assign then goal .assignment else pure plainType
    return .group .pattern [p, t, value]

/-- An item in parentheses: an expression, a spread, or a parameter with a type. -/
def parenItem : Parser Tree := do
  let start ← here
  anyModifiers
  let hasTypes := (← read).hasTypes
  let isSpread ← isMark .spread
  let plain ← if !hasTypes then pure true
    else if isSpread then pure !(← peekIsName)
    else pure !(← isName)
  let e ← within ({ · with arrowStart := some start }) do
    if plain then
      let _ ← eatMark .spread
      goal .assignment
    else if ← eatMark .spread then binaryExpression
    else
      let e ← binaryExpression
      assignmentTo e
  if !hasTypes then return if isSpread then .group .spread [e] else e
  let optional ← do
    if ← isMark .question then
      match (← peek).1 with
      | .mark .comma | .mark .assign | .mark .parenR | .mark .colon =>
        match e with
        | .ident _ =>
          advance
          pure true
        | _ => fail
      | _ => pure false
    else pure false
  if optional then return ← annotatedParameter e
  let e ← if !isSpread && (← isMark .question) then branches e else pure e
  if ← isMark .colon then annotatedParameter e
  else return if isSpread then .group .spread [e] else e

/-- Items in parentheses taken for the parameters of an arrow function. Only the last can be a
spread; others of this kind are left out. -/
def asParameters? : List Tree → Option (List Tree)
  | [] => some []
  | [.group .spread [e]] => do some [← e.asPattern? .parameter]
  | .group .spread _ :: items => asParameters? items
  | item :: items => do some ((← item.asPattern? .parameter) :: (← asParameters? items))

/-- An arrow function from behind its arrow on. -/
def arrowOf (isAsync : Bool) (items : List Tree) (result : Tree) : Parser Tree := do
  match asParameters? items with
  | none => fail
  | some ps =>
    let body ← arrowBody isAsync
    return .group .arrow (ps ++ [body, result])

/-- An arrow function with a type for its result, inside a conditional expression. -/
def arrowInConditional (isAsync : Bool) (items : List Tree) : Parser Tree := do
  let result ← resultType .colon
  expectMark .arrow
  let f ← arrowOf isAsync items result
  if (← read).colonExpected && !(← isMark .colon) then fail
  return f

/-- The type of the result of an arrow function, if there is one. -/
def arrowResult? : Parser (Option Tree) := attempt do
  let result ← resultType .colon
  unless ← isMark .arrow do fail
  return result

/-- An expression in parentheses, the parameters of an arrow function with its body, or, behind
`async`, the arguments of a call. The second argument is the place of that word. -/
def parenthesized (canBeArrow : Bool) (async? : Option Nat) : Parser Tree := do
  let items ← within bracketScope do
    expectMark .parenL
    let items ← commaList .parenR parenItem
    expectMark .parenR
    pure items
  let isAsync := async?.isSome
  let s ← read
  if s.hasTypes && s.inConditional && (← isMark .colon) then
    match ← attempt (arrowInConditional isAsync items) with
    | some f => return f
    | none => pure ()
  let result ← if s.hasTypes && !s.colonExpected && (← isMark .colon) then arrowResult?
    else pure none
  if items.any (·.isGroup .pattern) || result.isSome || (← isMark .arrow) then
    if (← newlineBefore) || !canBeArrow then fail
    expectMark .arrow
    let isBlock ← isMark .braceL
    let f ← arrowOf isAsync items (result.getD plainType)
    if isBlock then
      widenGreater
      match ← current with
      | .mark m => if m.precedence?.isSome then return ← binaryRest f 0 else return f
      | _ => return f
    return f
  if let some start := async? then return .call false start (.ident "async") items []
  if items.isEmpty || items.any (·.isGroup .spread) then fail
  match items with
  | [e] => return .paren e
  | es => return .paren (.group .sequence es)

/-! ## primary expressions -/

/-- An asynchronous arrow function with type parameters, from the word `async` on. -/
def genericAsyncArrow : Parser Tree := do
  expectWord "async"
  if ← newlineBefore then fail
  let ts ← typeParameters
  expectMark .parenL
  let ps ← within (functionScope true false) (goal .parameters)
  expectMark .parenR
  let r ← if ← isMark .colon then resultType .colon else pure plainType
  expectMark .arrow
  let body ← arrowBody true
  return .group .arrow [ps, body, ts, r]

/-- What starts with the word `async`, if it is more than a name. -/
def asyncExpression? (canBeArrow : Bool) : Parser (Option Tree) := do
  if ← peekIsWord "function" then
    advance
    return some (← functionFromWord true false)
  if canBeArrow && (← read).hasTypes && (← peekIsMark .less) then
    if let some f ← attempt genericAsyncArrow then return some f
  let (t, newline) ← peek
  if canBeArrow && t == .mark .parenL && !newline then
    let start ← here
    advance
    return some (← parenthesized canBeArrow (some start))
  return none

/-- A name, or an arrow function whose only parameter it is. -/
def nameOrArrow (canBeArrow : Bool) : Parser Tree := do
  let w ← anyWord
  if canBeArrow && w == "async" && !(← newlineBefore) && (← isName) then
    let p ← bindingName true
    if (← read).hasTypes && !(← isMark .arrow) then
      match p with
      | .ident "as" => return .group .asType [.ident w, ← goal .type]
      | _ => fail
    expectMark .arrow
    return .group .arrow [p, ← arrowBody true]
  if canBeArrow && !(← newlineBefore) && (← isMark .arrow) then
    advance
    return .group .arrow [.ident w, ← arrowBody false]
  return .ident w

/-- An expression that is put together from its own first token on. -/
def primary : Parser Tree := do
  let c ← get
  let canBeArrow := (← read).arrowStart == some c.start
  match c.token with
  | .word "async" =>
    match ← asyncExpression? canBeArrow with
    | some t => return t
    | none => nameOrArrow canBeArrow
  | .word "function" => functionFromWord false false
  | .word "class" => classFromWord false
  | .word w =>
    if w == "this" || w == "null" || w == "true" || w == "false" then
      advance
      return .leaf .literal
    if w == "let" || (← isName) then nameOrArrow canBeArrow else fail
  | .number =>
    advance
    return .leaf .literal
  | .string value =>
    advance
    return .string value
  | .mark .slash | .mark .slashAssign =>
    match regexLength c.here with
    | some n =>
      set (c.skip n)
      return .leaf .literal
    | none => fail
  | .mark .bracketL => arrayLiteral
  | .mark .braceL => objectLiteral
  | .mark .parenL => parenthesized canBeArrow none
  | .backquote => template false (within bracketScope (goal .expression))
  | .privateName =>
    advance
    if (← read).allowIn && (← isWord "in") then return .leaf .privateName else fail
  | _ => fail

/-! ## members and calls -/

/-- A call of a template with a tag. -/
def taggedTemplate (tag types : Tree) : Parser Tree := do
  let t ← within ({ · with colonExpected := false }) <|
    template true (within bracketScope (goal .expression))
  return .group .taggedTemplate [tag, types, t]

/-- The object of an access or a call, followed by type arguments if they are not for a call. -/
def withInstantiation (t : Tree) : Parser Tree := do
  match ← instantiation? with
  | some ts => return .group .instantiation [t, ts]
  | none => return t

/-- What type arguments behind an object are for: a call, a template, or nothing that follows. The
flag says whether more may follow. -/
def genericSubscript (start : Nat) (object : Tree) (noCall : Bool) : Parser (Tree × Bool) := do
  let ts ← typeArguments
  if !noCall && (← isMark .parenL) then
    let es ← callArguments
    return (.call object.inChain start object es [ts], true)
  if (← current) == .backquote then return (← taggedTemplate object ts, true)
  match ← current with
  | .mark .assign | .word "as" | .word "satisfies" =>
    return (.group .instantiation [object, ts], false)
  | _ => fail

/-- A member named behind a dot. -/
def namedSubscript (object : Tree) (chained : Bool) : Parser Tree := do
  let name ← match ← current with
    | .word w => do
      advance
      pure (some w)
    | .privateName => do
      advance
      pure none
    | _ => fail
  match object, name with
  | .group .superRef _, some _ => return .leaf .superMember
  | .group .superRef _, none => fail
  | .group .importRef _, some "meta" => return .leaf .metaProperty
  | .group .importRef _, some "source" | .group .importRef _, some "defer" =>
    return .leaf .importRef
  | .group .importRef _, _ => fail
  | _, some w => withInstantiation (.member chained object w)
  | _, none => withInstantiation (.group (.privateMember chained) [object])

/-- One access or call behind an object, if there is one, and whether more may follow. -/
def subscript (start : Nat) (object : Tree) (noCall : Bool) : Parser (Tree × Bool) := do
  let s ← read
  let isSuper := object.isGroup .superRef
  let isKeyword := isSuper || object.isGroup .importRef
  if s.hasTypes then
    if !(← newlineBefore) && (← isMark .bang) then
      if isKeyword then fail
      advance
      return (.group .nonNull [object], true)
    if !isKeyword && (← isOneOf [.less, .shiftLeft]) then
      if let some r ← attempt (genericSubscript start object noCall) then return r
  let opened ← eatMark .chain
  if opened && isKeyword then fail
  let chained := opened || object.inChain
  if ← isMark .bracketL then
    if object.isGroup .importRef || (isSuper && !s.allowSuper) then fail
    advance
    let key ← within bracketScope (goal .expression)
    expectMark .bracketR
    if isSuper then return (.group .superMember [key], true)
    return (← withInstantiation (.group (.computedMember chained) [object, key]), true)
  let ts ← if opened && s.hasTypes && (← isMark .less) then typeArguments else pure plainType
  if (opened || !noCall) && (← isMark .parenL) then
    let es ← callArguments
    return (.call chained start object es [ts], true)
  if opened then return (← namedSubscript object chained, true)
  if ← eatMark .dot then
    if isSuper && !s.allowSuper then fail
    return (← namedSubscript object chained, true)
  if isKeyword then fail
  if (← current) == .backquote then return (← taggedTemplate object plainType, true)
  return (object, false)

/-- What follows the object of a member access or a call. -/
def subscripts (start : Nat) (object : Tree) (noCall : Bool) : Parser Tree := do
  match ← subscript start object noCall with
  | (t, true) => goal (.subscripts start t noCall)
  | (t, false) => return t

/-- The type arguments in front of the arguments of a call. -/
def callTypes? : Parser (Option Tree) := do
  unless (← read).hasTypes && (← isOneOf [.less, .shiftLeft]) do return none
  attempt do
    let ts ← typeArguments
    unless ← isMark .parenL do fail
    return ts

/-- An instantiation, from behind the word `new` on. -/
def newExpression (start : Nat) : Parser Tree := do
  if ← eatMark .dot then
    expectWord "target"
    return ← goal (.subscripts start (.leaf .metaProperty) true)
  let callee ← goal .newOrMember
  if callee.isGroup .arrow then return callee
  match callee with
  | .member true _ _ | .call true _ _ _ _ => fail
  | .group (.privateMember true) _ | .group (.computedMember true) _ => fail
  | _ => pure ()
  let ts ← callTypes?
  if ← isMark .parenL then
    let es ← callArguments
    goal (.subscripts start (.group (.new true) (callee :: es ++ ts.toList)) true)
  else return .group (.new false) [callee]

/-- An instantiation or a member access. -/
def newOrMember : Parser Tree := do
  let start ← here
  if ← eatWord "new" then newExpression start
  else if ← eatWord "super" then goal (.subscripts start (.leaf .superRef) true)
  else if ← eatWord "import" then goal (.subscripts start (.leaf .importRef) true)
  else
    let object ← primary
    if object.isGroup .arrow then return object
    goal (.subscripts start (← withInstantiation object) true)

/-- An element in the place of an expression. -/
def elementExpression : Parser Tree := do
  let t ← goal .element
  advance
  return t

/-- The left-hand side of an assignment: a member access, a call or an instantiation. -/
def leftHandSide : Parser Tree := do
  let start ← here
  if (← read).hasJsx && (← isMark .less) then elementExpression
  else if ← eatWord "super" then goal (.subscripts start (.leaf .superRef) false)
  else if ← eatWord "import" then goal (.subscripts start (.leaf .importRef) false)
  else
    let callee ← newOrMember
    if callee.isGroup .arrow then return callee
    let ts ← callTypes?
    if callee.isGroup (.new false) then
      if ts.isSome then fail
      return callee
    if ← isMark .parenL then
      let es ← callArguments
      goal (.subscripts start (.call callee.inChain start callee es ts.toList) false)
    else return callee

/-! ## unary expressions -/

/-- A type assertion in front of its operand. -/
def typeAssertion : Parser Tree := do
  expectMark .less
  if ← eatWord "const" then
    expectMark .greater
    return .group .typeAssertion [← goal .unary]
  let t ← goal .type
  expectMark .greater
  return .group .typeAssertion [← goal .unary, t]

/-- An `await`, which is a name where nothing follows outside of asynchronous functions. -/
def awaitExpression : Parser Tree := do
  advance
  if ← isMark .star then fail
  if !(← read).inAsync then
    if (← canEndStatement) || (← isOneOf [.parenR, .bracketR, .comma]) then return .ident "await"
  return .group .await [← goal .unary]

/-- A left-hand side, perhaps counted up or down behind it. -/
def postfixExpression : Parser Tree := do
  let e ← leftHandSide
  if e.isGroup .arrow || (← newlineBefore) then return e
  if ← isOneOf [.increment, .decrement] then
    advance
    return .group .update [e]
  return e

/-- An expression behind operators. A missing operand is passed over. -/
def unary : Parser Tree := do
  let operand : Parser Tree := do
    advance
    return .group .unary [(← recover (goal .unary)).getD (.leaf .invalid)]
  match ← current with
  | .mark .less =>
    if (← read).hasTypes && !(← read).hasJsx then typeAssertion else postfixExpression
  | .mark .increment | .mark .decrement =>
    advance
    return .group .update [← goal .unary]
  | .mark .plus | .mark .minus | .mark .bang | .mark .tilde => operand
  | .word "delete" | .word "typeof" | .word "void" => operand
  | .word "await" => awaitExpression
  | _ => postfixExpression

end LocaleAudit.Script.Parser
