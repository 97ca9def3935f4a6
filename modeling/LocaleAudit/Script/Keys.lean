import LocaleAudit.Script.Parser
import LocaleAudit.Text.Utf16
import LocaleAudit.Usage

/-!
# LocaleAudit.Script.Keys

The keys that a script uses: the literal first arguments of its calls of translation functions. A
call counts if its callee names one of the functions, bare or as a member, and if it does not belong
to an optional chain.
-/

namespace LocaleAudit.Script

open Text

namespace Tree

/-! ## calls of translation functions -/

/-- The text of a string literal or of a template without substitutions. -/
def staticString? : Tree → Option String
  | string value => value
  | template value [] => value
  | paren inner => staticString? inner
  | _ => none

/-- The name that a callee has, bare or as a member that is not reached through an optional
chain. -/
def calleeName? : Tree → Option String
  | ident name => some name
  | member false _ name => some name
  | paren inner => calleeName? inner
  | _ => none

/-- A key and the place of the call that uses it, in characters. -/
structure KeyCall where
  /-- The key. -/
  key : String
  /-- Where the call starts. -/
  start : Nat
deriving Repr, DecidableEq

/-- The key that a tree uses as a call of one of the functions, not looking at its parts. -/
def keyCall? (functions : List String) : Tree → Option KeyCall
  | call false start callee (argument :: _) _ =>
    match callee.calleeName? with
    | some name =>
      if functions.contains name then argument.staticString?.map (⟨·, start⟩) else none
    | none => none
  | _ => none

/-! ## the calls in a tree -/

mutual

/-- The keys that a tree uses, a call before the calls in it. -/
def keyCalls (functions : List String) : Tree → List KeyCall
  | ident _ | string _ => []
  | template _ substitutions => keyCallsIn functions substitutions
  | paren inner => keyCalls functions inner
  | member _ object _ => keyCalls functions object
  | call chained start callee arguments types =>
    (keyCall? functions (call chained start callee arguments types)).toList ++
      (keyCalls functions callee ++ keyCallsIn functions arguments ++ keyCallsIn functions types)
  | property _ key value => keyCallsIn functions key ++ keyCalls functions value
  | group _ parts => keyCallsIn functions parts

/-- The keys that the trees of a list use, in order. -/
def keyCallsIn (functions : List String) : List Tree → List KeyCall
  | [] => []
  | t :: ts => keyCalls functions t ++ keyCallsIn functions ts

end

theorem keyCallsIn_eq_flatMap (functions : List String) (ts : List Tree) :
    keyCallsIn functions ts = ts.flatMap (keyCalls functions) := by
  induction ts with
  | nil => simp [keyCallsIn]
  | cons t ts ih => simp [keyCallsIn, ih]

/-- The keys of a tree are its own and those of its parts, in the order of the parts. -/
theorem keyCalls_eq (functions : List String) (t : Tree) :
    keyCalls functions t =
      (keyCall? functions t).toList ++ t.children.flatMap (keyCalls functions) := by
  cases t <;> simp [keyCalls, keyCall?, children, keyCallsIn_eq_flatMap, List.flatMap_append]

end Tree

/-! ## places -/

/-- The place a number of characters behind a place, in a text whose lines also end at a carriage
return and whose columns count UTF-16 units. -/
def positionAfter (p : Position) : Nat → List Char → Position
  | 0, _ | _, [] => p
  | n + 1, c :: cs =>
    if c = '\n' || (c = '\r' && cs.head? ≠ some '\n') then positionAfter ⟨p.line + 1, 1⟩ n cs
    else positionAfter ⟨p.line, p.col + (Utf16.unitsOf c.toNat).length⟩ n cs

/-- The place of a character of a script. -/
def positionOf (text : List Char) (n : Nat) : Position := positionAfter Position.start n text

/-- A text without the mark that may stand in front of it. -/
def withoutMark : List Char → List Char
  | '\ufeff' :: cs => cs
  | cs => cs

/-! ## usages -/

/-- The usages of the keys of a tree that has been read from `code`, for a file whose text is
`text`. -/
def usagesOf (functions : List String) (file : String) (text code : List Char) (t : Tree) :
    List Usage :=
  (t.keyCalls functions).map fun k =>
    ⟨k.key, SourceContext.at file text (positionOf code k.start)⟩

/-- The usages in a script, or nothing if it is malformed. -/
def collectUsages (functions : List String) (file : String) (dialect : Dialect)
    (text : List Char) : Option (List Usage) := do
  let code := withoutMark text
  let t ← parseModule dialect code
  some (usagesOf functions file text code t)

end LocaleAudit.Script
