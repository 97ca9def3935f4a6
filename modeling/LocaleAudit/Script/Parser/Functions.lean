import LocaleAudit.Script.Parser.Patterns

/-!
# LocaleAudit.Script.Parser.Functions

Functions, methods and classes.
-/

namespace LocaleAudit.Script.Parser

variable [Grammar]

/-! ## functions -/

/-- The scope of the inside of a function. -/
def functionScope (isAsync isGenerator : Bool) (s : Scope) : Scope :=
  { s with
    inAsync := isAsync
    inGenerator := isGenerator
    inConditional := false
    colonExpected := false
    inExtends := false
    arrowStart := none }

/-- The block of a function, which a dialect with types may leave out. -/
def functionBlock : Parser Tree := do
  if (← read).hasTypes && !(← isMark .braceL) && (← canEndStatement) then
    let _ ← eatMark .semicolon
    return .leaf .statement
  within ({ · with allowIn := true }) (goal .block)

/-- A function from its parameters on. -/
def functionRest (isAsync isGenerator : Bool) : Parser Tree :=
  within (functionScope isAsync isGenerator) do
    let ts ← typeParametersIfAny
    expectMark .parenL
    let ps ← goal .parameters
    expectMark .parenR
    let r ← if (← read).hasTypes && (← isMark .colon) then resultType .colon else pure plainType
    let body ← functionBlock
    return .group .function [ps, body, ts, r]

/-- The body of an arrow function: a block or an expression. -/
def arrowBody (isAsync : Bool) : Parser Tree := do
  if ← isMark .braceL then within (functionScope isAsync false) functionBlock
  else within ({ · with inAsync := isAsync, inGenerator := false }) (goal .assignment)

/-- A name, if one comes next. -/
def nameIfAny (letAllowed : Bool) : Parser Unit := do
  if ← isName then
    let _ ← bindingName letAllowed

/-- A function from the word `function` on, with or without a name. -/
def functionFromWord (isAsync nameRequired : Bool) : Parser Tree := do
  expectWord "function"
  let isGenerator ← eatMark .star
  if nameRequired then
    let _ ← bindingName true
  else within ({ · with inAsync := isAsync, inGenerator := isGenerator }) (nameIfAny true)
  within ({ · with allowSuper := false }) (functionRest isAsync isGenerator)

/-! ## members -/

/-- A method starts with the current token behind its name. -/
def atMethodStart : Parser Bool := do
  match ← current with
  | .mark .parenL => return true
  | .mark .less => return (← read).hasTypes
  | _ => return false

/-- A property goes on with the current token behind its name; a line end counts if `lineEnds`. -/
def atPropertyStart (lineEnds : Bool) : Parser Bool := do
  match ← current with
  | .mark .bang | .mark .colon => return (← read).hasTypes || (lineEnds && (← canEndStatement))
  | .mark .assign | .mark .braceR | .mark .semicolon => return true
  | _ => return lineEnds && (← canEndStatement)

/-- Takes a word that modifies a member, unless it is the name of the member. -/
def eatMemberWord (w : String) (lineEnds : Bool) : Parser Bool := do
  unless ← isWord w do return false
  let isNameHere ← lookAhead do
    advance
    if ← atMethodStart then return true
    if ← atPropertyStart lineEnds then return true
    return (← read).hasTypes && (← isMark .question)
  if isNameHere then return false
  advance
  return true

/-- The name of a member of a class: its text if it is a plain word, and its parts. -/
def classMemberName : Parser (Option String × List Tree) := do
  match ← current with
  | .privateName =>
    advance
    return (none, [])
  | .word w =>
    advance
    return (some w, [])
  | _ =>
    let (_, key) ← propertyName
    return (none, key)

/-- A property of a class from behind its name on. -/
def classProperty (key : List Tree) : Parser Tree := do
  let hasTypes := (← read).hasTypes
  if hasTypes then
    let _ ← eatMark .bang
  let t ← annotationIfAny
  let value ← within (fun s => { functionScope false false s with allowIn := true }) do
    if ← eatMark .assign then goal .assignment else pure plainType
  let _ ← eatSemicolon
  return .group .statement (key ++ [value, t])

/-- A method of a class from its parameters on. -/
def classMethod (key : List Tree) (isAsync isGenerator : Bool) : Parser Tree := do
  let f ← functionRest isAsync isGenerator
  return .group .method (key ++ [f])

/-- A member of a class from its name on. -/
def namedMember : Parser Tree := do
  let hasTypes := (← read).hasTypes
  if ← eatMark .star then
    let (_, key) ← classMemberName
    return ← classMethod key false true
  let (name, key) ← classMemberName
  let optional ← if hasTypes then eatMark .question else pure false
  if ← atMethodStart then return ← classMethod key false false
  let accessor := name == some "get" || name == some "set"
  let isAccessor ← do
    if !accessor then pure false
    else if ← atPropertyStart false then pure false
    else pure !((← newlineBefore) && (← isMark .star))
  if !isAccessor && (optional || (← atPropertyStart true)) then return ← classProperty key
  if name == some "async" && !(← newlineBefore) then
    let isGenerator ← eatMark .star
    let (_, key) ← classMemberName
    if hasTypes then
      let _ ← eatMark .question
    return ← classMethod key true isGenerator
  if isAccessor then
    let (_, key) ← classMemberName
    return ← classMethod key false false
  fail

/-- A member of a class. -/
def classMember : Parser Tree := do
  let hasTypes := (← read).hasTypes
  if hasTypes then
    let _ ← eatMemberWord "declare" true
    let _ ← modifier ["public", "protected", "private", "in", "out"]
    let _ ← eatMemberWord "declare" true
  let isStatic ← eatMemberWord "static" false
  if hasTypes then
    let _ ← eatMemberWord "accessor" true
  let later ← many do
    if (← isWord "static") && (← peekIsMark .braceL) then
      advance
      return some "static"
    modifier ["abstract", "readonly", "override", "static"]
  if hasTypes then
    let _ ← eatMemberWord "accessor" true
  if (isStatic || later.contains "static") && (← isMark .braceL) then
    return ← within (functionScope false false) (goal .block)
  if hasTypes then
    match ← indexSignature? with
    | some t => return t
    | none => namedMember
  else namedMember

/-! ## classes -/

/-- The class that a class extends, with its type arguments. -/
def superClass : Parser (List Tree) := do
  let e ← goal .leftHandSide
  let t ← if (← read).hasTypes && (← isOneOf [.less, .shiftLeft]) then typeArguments
    else pure plainType
  return [e, t]

/-- The types that a class implements or an interface extends. -/
def heritage : Parser (List Tree) := do
  let item : Parser Tree := do
    let start ← here
    let w ← anyWord
    let e ← goal (.subscripts start (.ident w) true)
    let t ← if ← isOneOf [.less, .shiftLeft] then typeArguments else pure plainType
    return .group .typeExpr [e, t]
  let h ← item
  let hs ← many do
    if ← eatMark .comma then return some (← item)
    return none
  return h :: hs

/-- The clauses in front of the body of a class: the class extended, and the types implemented. -/
def classHeritage : Parser (List Tree × List Tree) := do
  let hasTypes := (← read).hasTypes
  let sup ← if ← eatWord "extends" then superClass else pure []
  if hasTypes && !sup.isEmpty && (← isMark .comma) then
    advance
    let _ ← heritage
  if ← eatWord "extends" then
    let _ ← superClass
  unless hasTypes do return (sup, [])
  let impls ← if ← eatWord "implements" then heritage else pure []
  if ← eatWord "implements" then
    let _ ← heritage
  if ← eatWord "extends" then
    let late ← superClass
    return (if sup.isEmpty then late else sup, impls)
  return (sup, impls)

/-- A class from the word `class` on. Its members are visited before the class that it extends. -/
def classFromWord (nameRequired : Bool) : Parser Tree :=
  within ({ · with strict := true, arrowStart := none }) do
    expectWord "class"
    if nameRequired then
      let _ ← bindingName false
    else nameIfAny false
    let ts ← typeParametersIfAny
    let (sup, impls) ← classHeritage
    expectMark .braceL
    let members ← within ({ · with allowSuper := true }) <| itemsUntil .braceR do
      if ← eatMark .semicolon then return .leaf .statement
      classMember
    return .group .classBody (members ++ sup.take 1 ++ ts :: sup.drop 1 ++ impls)

end LocaleAudit.Script.Parser
