import LocaleAudit.Decimal.Shortest

/-!
# LocaleAudit.Json.Value

JSON values, and the numbers in them. A number is whole if it is written without a point and an
exponent and fits 64 bits, with a sign or without; every other number is a floating-point number of
double precision.
-/

namespace LocaleAudit.Json

open Decimal

/-! ## numbers -/

/-- A number. -/
inductive Number
  /-- A whole number. -/
  | whole (value : Int)
  /-- A floating-point number with its sign, which zero has too. -/
  | float (negative : Bool) (magnitude : Binary64)
deriving Repr, DecidableEq, Inhabited

namespace Number

/-- The largest whole number. -/
def largest : Nat := UInt64.size - 1

/-- Digits are gathered as long as the number that they make is not too large; the rest is left. -/
def gather (significand : Nat) : List Char → Nat × List Char
  | [] => (significand, [])
  | c :: cs =>
    let next := significand * 10 + (c.toNat - '0'.toNat)
    if next ≤ largest then gather next cs else (significand, c :: cs)

/-- The number divided by ten to a power, in steps that double precision can represent. -/
def divided (f : Binary64) (power : Nat) : Binary64 :=
  if power ≤ 308 then f.div (.powerOfTen power)
  else if f.isZero then f
  else divided (f.div (.powerOfTen 308)) (power - 308)
termination_by power

/-- The number times ten to a power, unless it is too large then. -/
def scaled? (f : Binary64) : Int → Option Binary64
  | .ofNat power =>
    if power ≤ 308 then
      let product := f.mul (.powerOfTen power)
      if product.overflows then none else some product
    else if f.isZero then some f
    else none
  | .negSucc n => some (divided f (n + 1))

/-- The number whose text has the given sign, digits in front of the point, digits behind it and
exponent, unless it is too large. Digits that do not fit the significand are not looked at, except
that those in front of the point count. -/
def ofParts? (negative : Bool) (digits fraction : List Char) (exponent : Option Int) :
    Option Number :=
  let (significand, left) := gather 0 digits
  if left.isEmpty && fraction.isEmpty && exponent.isNone &&
      (!negative || (0 < significand && significand ≤ 1 <<< 63)) then
    some (.whole (if negative then -significand else significand))
  else
    let (significand, ignored) := gather significand fraction
    let power : Int := left.length - (fraction.length - ignored.length : Nat)
    (scaled? (.ofNat significand) (power + exponent.getD 0)).map (.float negative)

/-- The value of a sequence of digits. -/
def valueOf (digits : List Char) : Nat :=
  digits.foldl (fun n c => n * 10 + (c.toNat - '0'.toNat)) 0

/-- The number that a text stands for, unless it is too large. -/
def ofText? (text : List Char) : Option Number :=
  let (negative, text) := match text with
    | '-' :: cs => (true, cs)
    | cs => (false, cs)
  let rest := text.dropWhile Char.isDigit
  let (fraction, rest) := match rest with
    | '.' :: cs => (cs.takeWhile Char.isDigit, cs.dropWhile Char.isDigit)
    | cs => ([], cs)
  let exponent := match rest with
    | [] => none
    | _ :: '-' :: cs => some (-(valueOf cs : Int))
    | _ :: '+' :: cs => some (valueOf cs : Int)
    | _ :: cs => some (valueOf cs : Int)
  ofParts? negative (text.takeWhile Char.isDigit) fraction exponent

/-- The text of a number. -/
def text : Number → List Char
  | whole value => (if value < 0 then ['-'] else []) ++ digitsOf value.natAbs
  | float negative magnitude =>
    (if negative then ['-'] else []) ++ magnitude.shortest.text

end Number

/-! ## values -/

/-- A JSON value. The members of an object are in order, and their names are distinct. -/
inductive Value
  | null
  | bool (value : Bool)
  | number (value : Number)
  | string (value : String)
  | array (elements : List Value)
  | object (members : List (String × Value))
deriving Repr, Inhabited

/-- The members of an object after one more is written: a name keeps its first place and takes the
last value. -/
def insert {α : Type} (name : String) (value : α) : List (String × α) → List (String × α)
  | [] => [(name, value)]
  | (n, v) :: ms => if n = name then (n, value) :: ms else (n, v) :: insert name value ms

/-- The members of an object that are written in the given order. -/
def insertAll {α : Type} (written : List (String × α)) : List (String × α) :=
  written.foldl (fun ms m => insert m.1 m.2 ms) []

end LocaleAudit.Json
