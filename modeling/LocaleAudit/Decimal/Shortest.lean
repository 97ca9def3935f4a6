import LocaleAudit.Decimal.Binary64

/-!
# LocaleAudit.Decimal.Shortest

The shortest decimal text that reads back as a given number. The decimals with one digit are tried
first, then those with two, and so on: on each grid of decimals only the two neighbours of the
number can be the one to write.
-/

namespace LocaleAudit.Decimal

/-- A decimal number, `digits * 10 ^ exponent`. -/
structure Digits where
  /-- The digits as a natural number. -/
  digits : Nat
  /-- The power of ten. -/
  exponent : Int
deriving Repr, DecidableEq, Inhabited

namespace Binary64

/-! ## the interval of a number -/

/-- The quotient `num / den` is rounded to the number. The numbers below a power of two lie twice as
dense, and a number in the middle between two belongs to the even one. -/
def attracts (a : Binary64) (num den : Nat) : Bool :=
  let quarter := den <<< a.exponent
  let point := 4 * (num <<< 1074)
  let low := (if a.mantissa = 1 <<< 52 && a.exponent > 0 then 4 * a.mantissa - 1
    else 4 * a.mantissa - 2) * quarter
  let high := (4 * a.mantissa + 2) * quarter
  if a.mantissa % 2 = 0 then low ≤ point && point ≤ high else low < point && point < high

/-- The number is nearer to the first decimal on a grid than to the next, or as near and the first
is even. Both are given in units of the grid, as is the number: `num / den`. -/
def nearerBelow (below num den : Nat) : Bool :=
  2 * num < (2 * below + 1) * den || (2 * num = (2 * below + 1) * den && below % 2 = 0)

/-! ## digits -/

/-- The number as a quotient. -/
def numerator (a : Binary64) : Nat := a.mantissa <<< a.exponent

/-- The decimal on the grid of the given power of ten that reads back as the number, if there is
one. -/
def onGrid? (a : Binary64) (exponent : Int) : Option Digits :=
  let up := Nat.pow 10 exponent.toNat
  let down := Nat.pow 10 (-exponent).toNat
  let num := a.numerator * down
  let den := up <<< 1074
  let below := num / den
  let hits := fun digits => a.attracts (digits * up) down
  if hits below && (nearerBelow below num den || !hits (below + 1)) then some ⟨below, exponent⟩
  else if hits (below + 1) then some ⟨below + 1, exponent⟩
  else none

/-- The power of ten of the first digit of the number, searched from the given one downwards. -/
def leadingFrom (a : Binary64) : Nat → Int → Int
  | 0, exponent => exponent
  | fuel + 1, exponent =>
    if Nat.pow 10 exponent.toNat <<< 1074 ≤ a.numerator * Nat.pow 10 (-exponent).toNat then exponent
    else leadingFrom a fuel (exponent - 1)

/-- The power of ten of the first digit of the number. -/
def leading (a : Binary64) : Int := leadingFrom a 635 310

/-- The decimal with the fewest digits that reads back as the number, the nearest of several. -/
def shortest (a : Binary64) : Digits :=
  let top := a.leading
  ((List.range 18).findSome? fun (places : Nat) => a.onGrid? (top - places)).getD ⟨a.numerator, 0⟩

end Binary64

/-! ## text -/

/-- The decimal digits of a number. -/
def digitsOf (n : Nat) : List Char := Nat.toDigits 10 n

/-- A decimal number without the zeros at the end of its digits. -/
def Digits.trimmed (d : Digits) : Digits :=
  let backwards := (digitsOf d.digits).reverse
  let zeros := (backwards.takeWhile (· = '0')).length
  if d.digits = 0 then ⟨0, 0⟩ else ⟨d.digits / Nat.pow 10 zeros, d.exponent + zeros⟩

/-- The text of a decimal number: positional from one hundred-thousandth up to ten to the sixteenth,
with at least one digit behind the point, and otherwise with a signed exponent. -/
def Digits.text (d : Digits) : List Char :=
  let d := d.trimmed
  let digits := digitsOf d.digits
  let point : Int := digits.length + d.exponent
  if d.digits = 0 then "0.0".toList
  else if -5 < point && point ≤ 0 then
    "0.".toList ++ List.replicate (-point).toNat '0' ++ digits
  else if 0 < point && point ≤ 16 then
    if d.exponent ≥ 0 then digits ++ List.replicate d.exponent.toNat '0' ++ ".0".toList
    else digits.take point.toNat ++ ['.'] ++ digits.drop point.toNat
  else
    let exponent := point - 1
    let fraction := digits.drop 1
    digits.take 1 ++ (if fraction.isEmpty then [] else '.' :: fraction) ++ ['e'] ++
      (if exponent < 0 then ['-'] else ['+']) ++ digitsOf exponent.natAbs

end LocaleAudit.Decimal
