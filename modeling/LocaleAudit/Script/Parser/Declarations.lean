import LocaleAudit.Script.Parser.Expressions

/-!
# LocaleAudit.Script.Parser.Declarations

Declarations: variables, functions, classes, and the declarations of types.
-/

namespace LocaleAudit.Script.Parser

variable [Grammar]

/-- A statement with the given parts. -/
def statementOf (parts : List Tree) : Tree := .group .statement parts

/-! ## variables -/

/-- The word `in` or `of` of the head of a loop comes next. -/
def atLoopWord : Parser Bool := do
  match ← current with
  | .word w => return w == "in" || w == "of"
  | _ => return false

/-- A declared variable with its initial value. -/
def declarator (inLoop letAllowed : Bool) : Parser Tree := do
  let hasTypes := (← read).hasTypes
  let p ← goal (.binding letAllowed)
  if hasTypes then
    match p with
    | .ident _ =>
      let _ ← eatMark .bang
    | _ => pure ()
  let t ← annotationIfAny
  if inLoop && (← atLoopWord) then return statementOf [p, t]
  if ← eatMark .assign then return statementOf [p, t, ← goal .assignment]
  return statementOf [p, t]

/-- Goes on to where the next statement can start. -/
def skipStatement : Parser Unit := do
  let _ ← recover (goal .expression)
  let _ ← many do
    if ← eatSemicolon then return none
    advance
    if (← current) == .bad then return none
    return some ()

/-- Variables, one at least or none before a semicolon, separated by commas. -/
def variableList (inLoop isVar : Bool) : Nat → Parser (List Tree)
  | 0 => fail
  | n + 1 => do
    if ← isMark .semicolon then return []
    let d ← declarator inLoop isVar
    if ← eatMark .comma then return d :: (← variableList inLoop isVar n)
    return [d]

/-- A declaration of variables from the declaring word on. What follows it on the line without a
semicolon is passed over. -/
def variableDeclaration (inLoop : Bool) : Parser Tree := do
  let isVar := (← anyWord) == "var"
  let fuel := (← read).size - (← here) + 2
  let ds ← within (fun s => { s with allowIn := s.allowIn || !isVar || !inLoop })
    (variableList inLoop isVar fuel)
  unless inLoop do
    unless ← eatSemicolon do skipStatement
  return statementOf ds

/-- The word `let` declares, as a name or a pattern follows it. -/
def letDeclares : Parser Bool := do
  match (← peek).1 with
  | .word w => return !reservedWords.contains w
  | .mark .braceL | .mark .bracketL => return true
  | _ => return false

/-- A resource that is disposed of at the end of the block, if the word declares one. -/
def usingDeclaration? : Parser (Option Tree) := do
  let (_, newline) ← peek
  if newline || !(← peekIsName) then return none
  advance
  let fuel := (← read).size - (← here) + 2
  let ds ← within ({ · with allowIn := true }) (variableList false false fuel)
  expectSemicolon
  return some (statementOf ds)

/-! ## types -/

/-- An interface, from its name on. -/
def interfaceDeclaration : Parser Tree := do
  let _ ← anyWord
  let ts ← typeParametersIfAny
  let hs ← if ← eatWord "extends" then heritage else pure []
  if ← eatWord "implements" then
    let _ ← heritage
  return statementOf (ts :: hs ++ [← objectTypeMembers])

/-- A name for a type, from that name on. -/
def typeAlias : Parser Tree := do
  let _ ← anyWord
  let ts ← typeParametersIfAny
  expectMark .assign
  let t ← goal .type
  expectSemicolon
  return statementOf [ts, t]

/-- A member of an enumeration. -/
def enumMember : Parser Tree := do
  let (_, key) ← propertyName
  if ← eatMark .assign then return statementOf (key ++ [← goal .assignment])
  return statementOf key

/-- An enumeration, from its name on. -/
def enumDeclaration : Parser Tree := do
  let _ ← anyWord
  expectMark .braceL
  let ms ← commaList .braceR enumMember
  expectMark .braceR
  return statementOf ms

/-- A namespace, from its name on. -/
def namespaceDeclaration : Parser Tree := do
  let _ ← anyWord
  let _ ← many do
    if ← eatMark .dot then return some (← anyWord)
    return none
  goal .namespaceBody

/-- The declaration of a module by its name, from that on. -/
def ambientModule : Parser Tree := do
  match ← current with
  | .word "global" => advance
  | .string _ => advance
  | _ => fail
  if ← isMark .braceL then goal .namespaceBody
  else
    expectSemicolon
    return statementOf []

/-- The declaration that a contextual word introduces, if it does; `behind` says that the cursor is
already behind the word. -/
def typeDeclaration? (word : String) (behind : Bool) : Parser (Option Tree) := do
  let skipWord : Parser Unit := unless behind do advance
  match word with
  | "abstract" =>
    if !behind || ((← isWord "class") && !(← newlineBefore)) then
      skipWord
      return some (← classFromWord true)
    return none
  | "enum" =>
    if !behind || (← isName) then
      skipWord
      return some (← enumDeclaration)
    return none
  | "interface" =>
    if !behind || (← isName) then
      skipWord
      return some (← interfaceDeclaration)
    return none
  | "module" =>
    if ← newlineBefore then return none
    skipWord
    match ← current with
    | .string _ => return some (← ambientModule)
    | _ =>
      if !behind || (← isName) then return some (← namespaceDeclaration)
      return none
  | "namespace" =>
    if !behind || (← isName) then
      skipWord
      return some (← namespaceDeclaration)
    return none
  | "type" =>
    if !behind || (!(← newlineBefore) && (← isName)) then
      skipWord
      return some (← typeAlias)
    return none
  | _ => return none

/-- What stands behind the word `declare`, if it is a declaration. -/
def declared? : Parser (Option Tree) := do
  match ← current with
  | .word "function" => return some (← functionFromWord false true)
  | .word "class" => return some (← classFromWord true)
  | .word "const" =>
    if (← peek).1 == .word "enum" then
      advance
      advance
      return some (← enumDeclaration)
    return some (← variableDeclaration false)
  | .word "var" | .word "let" => return some (← variableDeclaration false)
  | .word "global" => return some (← ambientModule)
  | .word w => typeDeclaration? w false
  | _ => return none

end LocaleAudit.Script.Parser
