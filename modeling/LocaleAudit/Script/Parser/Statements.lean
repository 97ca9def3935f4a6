import LocaleAudit.Script.Parser.Declarations

/-!
# LocaleAudit.Script.Parser.Statements

Statements, blocks, and the import and export statements of modules. A block may stay open at the
end of the text.
-/

namespace LocaleAudit.Script.Parser

variable [Grammar]

/-! ## blocks -/

/-- Items in braces, of which the closing one may be missing at the end of the text. -/
def bracedItems (item : Parser Tree) : Parser Tree := do
  expectMark .braceL
  let ts ← many do
    if ← atFinish then return none
    if ← eatMark .braceR then return none
    return some (← item)
  return statementOf ts

/-- An expression in parentheses in the head of a statement. -/
def headExpression : Parser Tree := do
  expectMark .parenL
  let e ← within ({ · with allowIn := true }) (goal .expression)
  expectMark .parenR
  return e

/-! ## branches -/

/-- A conditional statement. -/
def ifStatement : Parser Tree := do
  expectWord "if"
  let test ← headExpression
  let yes ← goal (.statement false)
  if ← eatWord "else" then return statementOf [test, yes, ← goal (.statement false)]
  return statementOf [test, yes]

/-- A case of a selection. -/
def switchCase : Parser (Option Tree) := do
  let test ← do
    if ← eatWord "case" then
      pure (some [← within ({ · with allowIn := true }) (goal .expression)])
    else if ← eatWord "default" then pure (some [])
    else pure none
  match test with
  | none => return none
  | some test =>
    expectMark .colon
    let body ← many do
      if (← isWord "case") || (← isWord "default") || (← isMark .braceR) then return none
      return some (← goal (.statement true))
    return some (statementOf (test ++ body))

/-- A selection between cases. -/
def switchStatement : Parser Tree := do
  expectWord "switch"
  let e ← headExpression
  expectMark .braceL
  let cases ← many switchCase
  expectMark .braceR
  return statementOf (e :: cases)

/-! ## errors -/

/-- The clause that handles an error, if there is one. -/
def catchClause : Parser (List Tree) := do
  unless ← eatWord "catch" do return []
  let p ← do
    if ← eatMark .parenL then
      let p ← goal (.binding true)
      let t ← annotationIfAny
      expectMark .parenR
      pure [p, t]
    else pure []
  return p ++ [← goal .block]

/-- The clause that runs in any case, if there is one. -/
def finallyClause : Parser (List Tree) := do
  if ← eatWord "finally" then return [← goal .block] else return []

/-- A statement that handles errors. -/
def tryStatement : Parser Tree := do
  expectWord "try"
  let body ← goal .block
  let handler ← catchClause
  return statementOf (body :: handler ++ (← finallyClause))

/-! ## loops -/

/-- The rest of the head of a counting loop, from behind the first semicolon on. -/
def countingHead (first : List Tree) : Parser (List Tree) := within ({ · with allowIn := true }) do
  let test ← do
    if ← eatMark .semicolon then pure []
    else
      let e ← goal .expression
      let _ ← eatMark .semicolon
      pure [e]
  let update ← if ← isMark .parenR then pure [] else pure [← goal .expression]
  return first ++ test ++ update

/-- The rest of the head of a loop over the elements or the keys of a value. -/
def eachHead (first : Tree) : Parser (List Tree) := within ({ · with allowIn := true }) do
  if ← eatWord "of" then return [first, ← goal .assignment]
  expectWord "in"
  return [first, ← goal .expression]

/-- The left side of a loop over a value. -/
def eachTarget (e : Tree) : Parser Tree := do
  match e with
  | .group .object _ | .group .array _ =>
    match e.asTarget? with
    | some t => return t
    | none => fail
  | _ => return e

/-- The word `using`, perhaps behind `await`, which declares the variable of a loop. -/
def isUsing : Tree → Bool
  | .ident w | .group .await [.ident w] => w == "using"
  | _ => false

/-- The name of the variable of a loop comes next, and then the word that goes over a value. -/
def atLoopName : Parser Bool := do
  if ← isWord "of" then return false
  match (← peek).1 with
  | .word w => return w == "of" || w == "in"
  | _ => return false

/-- The head of a loop, without its parentheses, and whether it goes over the elements of a
value. -/
def forHead : Parser (List Tree × Bool) := do
  let declares ← do
    match ← current with
    | .word "const" | .word "var" => pure true
    | .word "let" => letDeclares
    | _ => pure false
  if declares then
    let d ← variableDeclaration true
    let isOf ← isWord "of"
    if ← atLoopWord then return (← eachHead d, isOf)
    expectMark .semicolon
    return (← countingHead [d], false)
  else if ← eatMark .semicolon then return (← countingHead [], false)
  else
    let e ← within ({ · with allowIn := false }) (goal .expression)
    if (← read).hasTypes && isUsing e && (← atLoopName) then
      let p ← bindingName true
      let isOf ← isWord "of"
      return (← eachHead p, isOf)
    let isOf ← isWord "of"
    if ← atLoopWord then return (← eachHead (← eachTarget e), isOf)
    expectMark .semicolon
    return (← countingHead [e], false)

/-- A loop with a head. Only a loop over elements can wait for them. -/
def forStatement : Parser Tree := do
  expectWord "for"
  let waits ← eatWord "await"
  expectMark .parenL
  let (head, isOf) ← forHead
  expectMark .parenR
  let body ← goal (.statement false)
  if waits && !isOf then fail
  return statementOf (head ++ [body])

/-! ## names in front of statements -/

/-- A statement behind a label. -/
def labelled : Parser Tree := do
  if ← isWord "function" then functionFromWord false true else goal (.statement false)

/-- A statement that starts with the word of a declaration of a dialect with types; the cursor is
behind the word. -/
def wordStatement? (word : String) : Parser (Option Tree) := do
  match word with
  | "declare" => declared?
  | "global" => if ← isMark .braceL then return some (← goal .namespaceBody) else return none
  | _ => typeDeclaration? word true

/-- The end of an expression in the place of a statement. An operator that goes on behind the body
of a function is read as one. -/
def endExpression (e : Tree) : Parser Tree := do
  if ← eatSemicolon then return statementOf [e]
  widenGreater
  match ← current with
  | .mark m => if m.precedence?.isSome then return statementOf [← goal (.binaryRest e 0)] else fail
  | _ => fail

/-- An expression in the place of a statement, or what its name introduces. -/
def expressionStatement : Parser Tree := do
  let e ← within ({ · with allowIn := true }) (goal .expression)
  match e with
  | .ident w =>
    if ← eatMark .colon then return ← labelled
    if (← read).hasTypes then
      if let some t ← wordStatement? w then return t
    endExpression e
  | _ => endExpression e

/-! ## statements -/

/-- A statement that leaves a loop or goes on with it. -/
def jumpStatement : Parser Tree := do
  advance
  unless ← eatSemicolon do
    let _ ← bindingName true
    expectSemicolon
  return statementOf []

/-- A statement that leaves a function. -/
def returnStatement : Parser Tree := do
  expectWord "return"
  if ← eatSemicolon then return statementOf []
  let e ← within ({ · with allowIn := true }) (goal .expression)
  expectSemicolon
  return statementOf [e]

/-- A statement that raises an error. -/
def throwStatement : Parser Tree := do
  expectWord "throw"
  if ← newlineBefore then fail
  let e ← within ({ · with allowIn := true }) (goal .expression)
  expectSemicolon
  return statementOf [e]

/-- The statement that a keyword introduces, if it does. -/
def keywordStatement? (word : String) (declarations : Bool) : Parser (Option Tree) := do
  match word with
  | "break" | "continue" => return some (← jumpStatement)
  | "debugger" =>
    advance
    expectSemicolon
    return some (statementOf [])
  | "do" =>
    advance
    let body ← goal (.statement false)
    expectWord "while"
    let test ← headExpression
    let _ ← eatSemicolon
    return some (statementOf [test, body])
  | "for" => return some (← forStatement)
  | "function" => return some (← functionFromWord false true)
  | "class" => return some (← classFromWord true)
  | "if" => return some (← ifStatement)
  | "return" => return some (← returnStatement)
  | "switch" => return some (← switchStatement)
  | "throw" => return some (← throwStatement)
  | "catch" =>
    let _ ← recover catchClause
    let _ ← recover finallyClause
    return some (.leaf .invalid)
  | "finally" =>
    let _ ← recover finallyClause
    return some (.leaf .invalid)
  | "try" => return some (← tryStatement)
  | "with" | "while" =>
    advance
    let e ← headExpression
    return some (statementOf [e, ← goal (.statement false)])
  | "var" => return some (← variableDeclaration false)
  | "const" => if declarations then return some (← variableDeclaration false) else return none
  | "let" =>
    if declarations && (← letDeclares) then return some (← variableDeclaration false)
    return none
  | "using" => if declarations then usingDeclaration? else return none
  | "await" =>
    let isUsing ← lookAhead do
      advance
      if !(← isWord "using") then return false
      let (_, newline) ← peek
      return !newline && (← peekIsName)
    if declarations && isUsing then
      advance
      usingDeclaration?
    else return none
  | "async" =>
    if ← peekIsWord "function" then
      advance
      return some (← functionFromWord true true)
    return none
  | "import" =>
    if (← peekIsMark .parenL) || (← peekIsMark .dot) then
      let e ← goal .expression
      let _ ← eatSemicolon
      return some (statementOf [e])
    fail
  | "export" => fail
  | _ => return none

/-- The declaration of a type that a word introduces in front of a name on its line, if it does. -/
def typeStatement? (word : String) : Parser (Option Tree) := do
  unless (← read).hasTypes do return none
  if word == "const" then
    if (← peek).1 == .word "enum" then
      advance
      advance
      return some (← enumDeclaration)
    return none
  unless ← peekIsAnyWord do return none
  match word with
  | "interface" =>
    advance
    return some (← interfaceDeclaration)
  | "type" =>
    advance
    return some (← typeAlias)
  | "enum" =>
    advance
    return some (← enumDeclaration)
  | _ => return none

/-- A statement; declarations are allowed or not. -/
def statement (declarations : Bool) : Parser Tree := do
  match ← current with
  | .word w =>
    if let some t ← typeStatement? w then return t
    if let some t ← keywordStatement? w declarations then return t
    expressionStatement
  | .mark .braceL => goal .block
  | .mark .semicolon =>
    advance
    return statementOf []
  | _ => expressionStatement

/-! ## modules -/

/-- The attributes behind the name of a module. -/
def moduleAttributes : Parser Unit := do
  if !(← newlineBefore) && ((← isWord "with") || (← isWord "assert")) then
    advance
    let _ ← objectLiteral

/-- The name of a module, and the end of the statement. -/
def fromClause : Parser Unit := do
  expectWord "from"
  stringLiteral
  moduleAttributes
  expectSemicolon

/-- A name that a module exports, and whether it is a word that can be a name here. -/
def exportedName : Parser (Option String × Bool) := do
  match ← current with
  | .word w =>
    let usable ← isName
    advance
    return (some w, usable)
  | .string _ =>
    advance
    return (none, false)
  | _ => fail

/-- The new name of a member of an import or an export. -/
def newName (imported : Bool) : Parser Unit := do
  if imported then
    let _ ← bindingName true
  else
    let _ ← exportedName

/-- What follows the word `type` and the word `as` in a list: `as` is the name of a type, or what
follows it is a new name. -/
def specifierBehindAs (imported : Bool) : Parser Unit := do
  if ← atWord then
    let again ← isWord "as"
    newName imported
    if again && (← atWord) then newName imported

/-- A name in the list of an import or an export. An imported name that cannot be used as such needs
a new one. -/
def moduleSpecifier (imported : Bool) : Parser Unit := do
  let (name, usable) ← exportedName
  let isType ← if (← read).hasTypes && name == some "type" then atWord else pure false
  let isAs ← if isType then eatWord "as" else pure false
  if isAs then specifierBehindAs imported
  else
    let usable ← if isType then do pure (← exportedName).2 else pure usable
    if ← eatWord "as" then newName imported
    else if imported && !usable then fail

/-- A list of names in braces. -/
def moduleSpecifiers (imported : Bool) : Parser Unit := do
  expectMark .braceL
  let _ ← commaList .braceR (moduleSpecifier imported)
  expectMark .braceR

/-- An alias of a namespace or a module, from the equals sign on. -/
def importEquals : Parser Tree := do
  expectMark .assign
  if (← isWord "require") && (← peekIsMark .parenL) then
    advance
    expectMark .parenL
    stringLiteral
    expectMark .parenR
  else entityName
  expectSemicolon
  return statementOf []

/-- When the module of an import is needed. -/
inductive ImportPhase
  /-- When the import is reached. -/
  | evaluation
  /-- When one of its names is used first. -/
  | defer
  /-- Only as a source that can be compiled. -/
  | source
deriving DecidableEq

/-- The phase that a word in front of the name of an import asks for. -/
def ImportPhase.ofWord (word : String) : ImportPhase :=
  if word = "defer" then defer else if word = "source" then source else evaluation

/-- The name behind a word in front of it, if that word is not the name itself. -/
def nameBehind? : Parser (Option String) := do
  if (← isName) && (!(← isWord "from") || (← peek).1 == .word "from") then return some (← anyWord)
  return none

/-- The name in front of the list of an import, and the phase of the import; `none` if the statement
is an alias. -/
def importDefault : Parser (Option ImportPhase) := do
  let hasTypes := (← read).hasTypes
  let mut w ← anyWord
  if hasTypes && w == "type" then
    if ← isOneOf [.braceL, .star] then return some .evaluation
    if let some name ← nameBehind? then w := name
    else if (← isName) && (← peekIsMark .assign) then w ← anyWord
  if hasTypes && (← isMark .assign) then return none
  let mut phase := ImportPhase.ofWord w
  if phase ≠ .evaluation then
    if ← isOneOf [.braceL, .star] then return some phase
    if (← nameBehind?).isNone then phase := .evaluation
  unless ← isWord "from" do expectMark .comma
  return some phase

/-- An import, from behind the word on. A list of names is imported in the first phase only, and all
names together in any but the last. -/
def importStatement : Parser Tree := do
  match ← current with
  | .string _ =>
    advance
    moduleAttributes
    expectSemicolon
    return statementOf []
  | _ =>
    let phase? ← if ← isName then importDefault else pure (some .evaluation)
    match phase? with
    | none => importEquals
    | some phase =>
      if phase ≠ .source && (← eatMark .star) then
        expectWord "as"
        let _ ← bindingName true
      else if phase = .evaluation && (← isMark .braceL) then moduleSpecifiers true
      fromClause
      return statementOf []

/-- A default export, from behind the word `default` on. -/
def exportDefault : Parser Tree := do
  if (← read).hasTypes then
    if (← isWord "abstract") && (← peekIsWord "class") then
      advance
      return ← classFromWord false
    if (← isWord "interface") && (← peekIsAnyWord) then
      advance
      return ← interfaceDeclaration
  if ← isWord "class" then classFromWord false
  else if (← isWord "async") && (← peekIsWord "function") then
    advance
    functionFromWord true false
  else if ← isWord "function" then functionFromWord false false
  else
    let e ← within ({ · with allowIn := true }) (goal .assignment)
    expectSemicolon
    return statementOf [e]

/-- The exports that only a dialect with types has, from behind the word `export` on. -/
def typedExport? : Parser (Option Tree) := do
  if ← eatWord "declare" then
    if let some t ← declared? then return some t
  match ← current with
  | .word "import" =>
    advance
    if (← isWord "type") && (← peekIsAnyWord) then advance
    let _ ← anyWord
    return some (← importEquals)
  | .word "as" =>
    advance
    expectWord "namespace"
    let _ ← bindingName true
    expectSemicolon
    return some (statementOf [])
  | .word w => return (← attempt (typeDeclaration? w false)).join
  | .mark .assign =>
    advance
    let e ← goal .expression
    expectSemicolon
    return some (statementOf [e])
  | _ => return none

/-- A list of exported names or all names of a module, from behind the word `export` on. -/
def exportNames : Parser Tree := do
  if ← eatMark .star then
    if ← eatWord "as" then
      let _ ← exportedName
    fromClause
  else
    moduleSpecifiers false
    if ← isWord "from" then fromClause
    else
      let _ ← eatSemicolon
  return statementOf []

/-- An export, from behind the word on. -/
def exportStatement : Parser Tree := do
  if (← read).hasTypes then
    if let some t ← typedExport? then return t
  let typeOnly ← if (← read).hasTypes then eatWord "type" else pure false
  if typeOnly then return ← exportNames
  match ← current with
  | .word "default" =>
    advance
    exportDefault
  | .word "class" => classFromWord true
  | .word "function" => functionFromWord false true
  | .word "async" =>
    advance
    functionFromWord true true
  | .word "const" =>
    if (← read).hasTypes && (← peek).1 == .word "enum" then
      advance
      advance
      enumDeclaration
    else variableDeclaration false
  | .word "var" => variableDeclaration false
  | .word "let" => if ← letDeclares then variableDeclaration false else fail
  | _ => exportNames

/-- A statement of a module. -/
def moduleItem : Parser Tree := do
  match ← current with
  | .word "import" =>
    if (← peekIsMark .parenL) || (← peekIsMark .dot) then statement true
    else
      advance
      importStatement
  | .word "export" =>
    advance
    exportStatement
  | _ => statement true

end LocaleAudit.Script.Parser
