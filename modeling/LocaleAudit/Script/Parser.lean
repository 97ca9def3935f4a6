import LocaleAudit.Script.Parser.Statements

/-!
# LocaleAudit.Script.Parser

Scripts and single expressions as syntax trees.

The rules of the grammar call each other through `Grammar`. Here they are put together: `rule` names
the rule of each goal, and `readGoal` reads a goal with rules that go down at most as many levels as
its first argument says. Each level takes a part of the text before it goes down too far, so that a
number in proportion to the length of the text is enough.
-/

namespace LocaleAudit.Script

namespace Parser

/-- The rule of a goal. -/
def rule [Grammar] : Goal → Parser Tree
  | .assignment => assignment
  | .expression => expression
  | .unary => unary
  | .binaryRest left binding => binaryRest left binding
  | .subscripts start object noCall => subscripts start object noCall
  | .newOrMember => newOrMember
  | .leftHandSide => leftHandSide
  | .element => openElement
  | .statement declarations => statement declarations
  | .moduleItem => moduleItem
  | .block => bracedItems (goal (.statement true))
  | .parameters => parameters
  | .binding letAllowed => bindingPattern letAllowed
  | .type => anyType
  | .typeOperator => typeOperator
  | .namespaceBody => bracedItems (goal .moduleItem)

/-- Reads a goal, at most the given number of levels deep. -/
def readGoal : Nat → Goal → Parser Tree
  | 0, _ => fail
  | depth + 1, g =>
    letI : Grammar := ⟨readGoal depth⟩
    rule g

/-- The depth that is enough for a text of the given length. -/
def depthFor (size : Nat) : Nat := 8 * (size + 4)

/-- The scope of a whole text of the given length. -/
def outerScope (dialect : Dialect) (strict : Bool) (size : Nat) : Scope :=
  { dialect, strict, size }

end Parser

open LocaleAudit.Script.Parser

/-- The tree of a module, or nothing if the text is not one. -/
def parseModule (dialect : Dialect) (text : List Char) : Option Tree :=
  let size := text.length
  letI : Grammar := ⟨readGoal (depthFor size)⟩
  let items := many do
    if ← atFinish then return none
    return some (← goal .moduleItem)
  match items (outerScope dialect true size) (Cursor.first text) with
  | .ok ts _ => some (.group .statement ts)
  | .error _ _ => none

/-- The tree of the expression at the start of a text; what follows it is not looked at. -/
def parseExpression (text : List Char) : Option Tree :=
  let size := text.length
  letI : Grammar := ⟨readGoal (depthFor size)⟩
  match goal .expression (outerScope .ts false size) (Cursor.first text) with
  | .ok t _ => some t
  | .error _ _ => none

end LocaleAudit.Script
