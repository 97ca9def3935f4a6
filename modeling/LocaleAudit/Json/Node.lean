import LocaleAudit.Json.Value
import LocaleAudit.Text.Lines

/-!
# LocaleAudit.Json.Node

JSON as it is written: values that know where they stand in their text. Unlike an object value, an
object that is written may name a member twice.
-/

namespace LocaleAudit.Json

/-! ## nodes -/

/-- A range of bytes in a text. -/
structure Span where
  /-- Where it starts. -/
  lo : Nat
  /-- Where it ends. -/
  hi : Nat
deriving Repr, DecidableEq, Inhabited

/-- The name of a member, whose span includes the quotes. -/
structure Key where
  /-- The name. -/
  name : String
  /-- Where it stands. -/
  span : Span
deriving Repr, DecidableEq, Inhabited

/-- A member of an object, whose value is of some type. -/
structure Member (ν : Type) where
  /-- Its name. -/
  key : Key
  /-- Its value. -/
  value : ν
  /-- Where the whole of it stands. -/
  span : Span
deriving Repr, Inhabited

/-- A value with its place. -/
inductive Node
  | null (span : Span)
  | bool (value : Bool) (span : Span)
  /-- A number, as it is written. -/
  | number (raw : String) (span : Span)
  | string (value : String) (span : Span)
  | array (elements : List Node) (span : Span)
  | object (members : List (Member Node)) (span : Span)
deriving Repr, Inhabited

namespace Node

/-- Where a value stands. -/
def span : Node → Span
  | null s | bool _ s | number _ s | string _ s | array _ s | object _ s => s

mutual

/-- The value of a node: of the members with one name the last one counts, and a number that is too
large is null. -/
def toValue : Node → Value
  | null _ => .null
  | bool b _ => .bool b
  | number raw _ => ((Number.ofText? raw.toList).map .number).getD .null
  | string s _ => .string s
  | array elements _ => .array (elementValues elements)
  | object members _ => .object (insertAll (memberValues members))

/-- The values of the elements of an array. -/
def elementValues : List Node → List Value
  | [] => []
  | n :: ns => n.toValue :: elementValues ns

/-- The names and values of the members of an object, as they are written. -/
def memberValues : List (Member Node) → List (String × Value)
  | [] => []
  | ⟨k, n, _⟩ :: ms => (k.name, n.toValue) :: memberValues ms

end

/-- The members of an object, and none of anything else. -/
def members : Node → List (Member Node)
  | object ms _ => ms
  | _ => []

end Node

end LocaleAudit.Json
