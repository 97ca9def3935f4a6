import LocaleAudit.Script.Dialect
import LocaleAudit.Script.Token
import LocaleAudit.Script.Tree

/-!
# LocaleAudit.Script.Parser.Basic

The parser of scripts: a cursor over the tokens of a text, the scope that a rule is read in, and
the means to put rules together.

The rules refer to each other through `Grammar`, which reads any of the goals, so that each rule is
a plain definition; `LocaleAudit.Script.Parser` ties the knot. A parser that fails keeps the place
where it failed, because some rules go on from there.
-/

namespace LocaleAudit.Script

/-! ## the cursor -/

/-- A place between two tokens of a text. -/
structure Cursor where
  /-- The token that comes next. -/
  token : Token
  /-- Where the token starts, in characters from the start of the text. -/
  start : Nat
  /-- A line ends between the token before and this one. -/
  newline : Bool
  /-- The text from the token on. -/
  here : List Char
  /-- The text behind the token. -/
  rest : List Char
  /-- Where the text behind the token starts. -/
  restStart : Nat

namespace Cursor

/-- The cursor in front of the token that follows a gap of the given length. -/
def pastGap (gap : Nat) (newline : Bool) (text : List Char) (start : Nat) : Cursor :=
  let here := text.drop gap
  let (token, length) := Token.scan here
  ⟨token, start + gap, newline, here, here.drop length, start + gap + length⟩

/-- The cursor in front of the first token of a text that starts at the given place. -/
def behind (text : List Char) (start : Nat) : Cursor :=
  let (gap, newline) := gapLength false text
  pastGap gap newline text start

/-- The cursor at the start of a text, whose first line may name an interpreter. -/
def first (text : List Char) : Cursor :=
  let line := match text with
    | '#' :: '!' :: _ => (text.takeWhile fun c => !isLineEnd c).length
    | _ => 0
  let (gap, newline) := gapLength true (text.drop line)
  pastGap gap newline (text.drop line) line

/-- The cursor behind the current token. -/
def next (c : Cursor) : Cursor := behind c.rest c.restStart

/-- The cursor behind the next `length` characters, which are taken for one token. -/
def skip (c : Cursor) (length : Nat) : Cursor := behind (c.here.drop length) (c.start + length)

end Cursor

/-! ## the scope -/

/-- What the surroundings of a rule have settled for it. -/
structure Scope where
  /-- The dialect of the text. -/
  dialect : Dialect
  /-- The length of the text. -/
  size : Nat
  /-- Words are reserved as in strict code. -/
  strict : Bool := false
  /-- The rule stands in an asynchronous function. -/
  inAsync : Bool := false
  /-- The rule stands in a generator. -/
  inGenerator : Bool := false
  /-- The word `in` is an operator. -/
  allowIn : Bool := false
  /-- The rule stands in a branch of a conditional expression. -/
  inConditional : Bool := false
  /-- The colon of a conditional expression is still to come. -/
  colonExpected : Bool := false
  /-- Members of `super` can be named. -/
  allowSuper : Bool := false
  /-- The rule stands in a type, after `extends`. -/
  inExtends : Bool := false
  /-- Where an arrow function may start. -/
  arrowStart : Option Nat := none

namespace Scope

/-- The dialect has type annotations. -/
def hasTypes (s : Scope) : Bool := s.dialect.hasTypes

/-- The dialect has JSX elements. -/
def hasJsx (s : Scope) : Bool := s.dialect.hasJsx

/-- The word cannot be used as a name here. -/
def isReserved (s : Scope) (word : String) : Bool :=
  reservedWords.contains word ||
    (word == "let" && s.strict) ||
    (word == "await" && (s.inAsync || s.strict)) ||
    (word == "yield" && (s.inGenerator || s.strict)) ||
    (s.strict && ["implements", "package", "protected", "interface", "private", "public"].contains
      word)

end Scope

/-! ## parsers -/

/-- A parser. Its failure carries no cause, as only the fact and the place are looked at. -/
abbrev Parser := ReaderT Scope (EStateM Unit Cursor)

/-- What the rules of the grammar call each other for. -/
inductive Goal
  | assignment
  | expression
  | unary
  /-- What follows an operand, for operators that bind more tightly than the given number. -/
  | binaryRest (left : Tree) (binding : Nat)
  /-- What follows the object of a member access or a call. -/
  | subscripts (start : Nat) (object : Tree) (noCall : Bool)
  /-- An instantiation or a member access. -/
  | newOrMember
  | leftHandSide
  | element
  /-- A statement; declarations are allowed or not. -/
  | statement (declarations : Bool)
  /-- A statement of a module. -/
  | moduleItem
  | block
  /-- The parameters of a function, up to the closing parenthesis. -/
  | parameters
  | binding (letAllowed : Bool)
  | type
  | typeOperator
  | namespaceBody

/-- A reader of all goals of the grammar. -/
class Grammar where
  /-- Reads a goal. -/
  parse : Goal → Parser Tree

/-- Reads a goal of the grammar. -/
def goal [Grammar] (g : Goal) : Parser Tree := Grammar.parse g

namespace Parser

/-- Fails at the current place. -/
def fail {α : Type} : Parser α := fun _ c => .error () c

/-- Runs a parser; if it fails, goes back to where it started. -/
def attempt {α : Type} (p : Parser α) : Parser (Option α) := fun s c =>
  match p s c with
  | .ok a c' => .ok (some a) c'
  | .error _ _ => .ok none c

/-- Runs a parser; if it fails, stays where it failed. -/
def recover {α : Type} (p : Parser α) : Parser (Option α) := fun s c =>
  match p s c with
  | .ok a c' => .ok (some a) c'
  | .error _ c' => .ok none c'

/-- Runs a test and goes back to where it started; a failure counts as no. -/
def lookAhead (p : Parser Bool) : Parser Bool := fun s c =>
  match p s c with
  | .ok b _ => .ok b c
  | .error _ _ => .ok false c

/-- Runs a parser in a changed scope. -/
def within {α : Type} (change : Scope → Scope) (p : Parser α) : Parser α := fun s c =>
  p (change s) c

/-- Reads items until one is missing, at most the given number of times. -/
def repeatUpTo {α : Type} (item : Parser (Option α)) : Nat → Parser (List α)
  | 0 => fail
  | n + 1 => do
    match ← item with
    | none => pure []
    | some a => return a :: (← repeatUpTo item n)

/-- Reads items until one is missing. Each item takes a character at least, so that the length of
the rest of the text bounds their number. -/
def many {α : Type} (item : Parser (Option α)) : Parser (List α) := do
  let c ← get
  let s ← read
  repeatUpTo item (s.size - c.start + 2)

/-! ## tokens -/

/-- The current token. -/
def current : Parser Token := return (← get).token

/-- Where the current token starts. -/
def here : Parser Nat := return (← get).start

/-- A line ends in front of the current token. -/
def newlineBefore : Parser Bool := return (← get).newline

/-- Goes behind the current token. -/
def advance : Parser Unit := modify Cursor.next

/-- The token behind the current one, and whether a line ends in front of it. -/
def peek : Parser (Token × Bool) := do
  let c := (← get).next
  return (c.token, c.newline)

/-- The current token is the given mark. -/
def isMark (m : Mark) : Parser Bool := return (← current) == .mark m

/-- The current token is one of the given marks. -/
def isOneOf (ms : List Mark) : Parser Bool := do
  match ← current with
  | .mark m => return ms.contains m
  | _ => return false

/-- The current token is the given word. -/
def isWord (w : String) : Parser Bool := return (← current) == .word w

/-- The token behind the current one is the given mark. -/
def peekIsMark (m : Mark) : Parser Bool := return (← peek).1 == .mark m

/-- The token behind the current one is the given word on the same line. -/
def peekIsWord (w : String) : Parser Bool := do
  let (t, newline) ← peek
  return t == .word w && !newline

/-- The token behind the current one is a word on the same line. -/
def peekIsAnyWord : Parser Bool := do
  match ← peek with
  | (.word _, newline) => return !newline
  | _ => return false

/-- Takes a mark if it comes next. -/
def eatMark (m : Mark) : Parser Bool := do
  if ← isMark m then
    advance
    return true
  return false

/-- Takes a word if it comes next. -/
def eatWord (w : String) : Parser Bool := do
  if ← isWord w then
    advance
    return true
  return false

/-- Takes a mark, or fails. -/
def expectMark (m : Mark) : Parser Unit := do
  unless ← eatMark m do fail

/-- Takes a word, or fails. -/
def expectWord (w : String) : Parser Unit := do
  unless ← eatWord w do fail

/-- The current token is a word. -/
def atWord : Parser Bool := do
  match ← current with
  | .word _ => return true
  | _ => return false

/-- The word that comes next, whatever it is. -/
def anyWord : Parser String := do
  match ← current with
  | .word w =>
    advance
    return w
  | _ => fail

/-- The string literal that comes next. -/
def stringLiteral : Parser Unit := do
  match ← current with
  | .string _ => advance
  | _ => fail

/-- The text has ended. -/
def atFinish : Parser Bool := return (← current) == .finish

/-- The current token is a word that can be used as a name here. -/
def isName : Parser Bool := do
  match ← current with
  | .word w => return !(← read).isReserved w
  | _ => return false

/-- The token behind the current one is a word that can be used as a name here. -/
def peekIsName : Parser Bool := do
  match ← peek with
  | (.word w, _) => return !(← read).isReserved w
  | _ => return false

/-- A greater-than sign, if one comes next, is taken together with the operator that it starts. -/
def widenGreater : Parser Unit := do
  let c ← get
  if c.token == .mark .greater then
    let (m, n) := Mark.widen c.here
    set { c with token := .mark m, rest := c.here.drop n, restStart := c.start + n }

/-- A left shift, if one comes next, is taken for a less-than sign. -/
def narrowLess : Parser Unit := do
  let c ← get
  if c.token == .mark .shiftLeft then
    set { c with token := .mark .less, rest := c.here.drop 1, restStart := c.start + 1 }

/-- A statement can end here without a semicolon. -/
def canEndStatement : Parser Bool := do
  match ← current with
  | .mark .semicolon | .mark .braceR | .finish => return true
  | _ => newlineBefore

/-- Takes the semicolon of a statement, which may be left out where the statement can end. -/
def eatSemicolon : Parser Bool := do
  if ← eatMark .semicolon then return true
  canEndStatement

/-- Takes the semicolon of a statement, or fails if the statement cannot end here. -/
def expectSemicolon : Parser Unit := do
  unless ← eatSemicolon do fail

/-- Reads items separated by commas up to a closing mark, which is left; a comma may follow the
last item. -/
def commaList {α : Type} (close : Mark) (item : Parser α) : Parser (List α) :=
  many do
    if ← isMark close then return none
    let a ← item
    unless ← isMark close do expectMark .comma
    return some a

/-- Reads items up to a closing mark, which is taken. -/
def itemsUntil {α : Type} (close : Mark) (item : Parser α) : Parser (List α) :=
  many do
    if ← eatMark close then return none
    return some (← item)

end Parser

end LocaleAudit.Script
