/-!
# LocaleAudit.Decimal.Binary64

Non-negative binary floating-point numbers of double precision, in exact arithmetic. A number is a
mantissa of at most 53 bits on a grid of powers of two; the exponent has no upper limit, so that an
overflow is a number that is too large.
-/

namespace LocaleAudit.Decimal

/-! ## rounding -/

/-- The natural number nearest to a quotient; of two, the even one. -/
def nearest (num den : Nat) : Nat :=
  let q := num / den
  let r := num % den
  if 2 * r < den then q
  else if den < 2 * r then q + 1
  else q + q % 2

/-- The number `mantissa * 2 ^ exponent / 2 ^ 1074`. -/
structure Binary64 where
  /-- The digits, at most 53 bits. -/
  mantissa : Nat
  /-- The power of two, counted from the finest grid. -/
  exponent : Nat
deriving Repr, DecidableEq, Inhabited

namespace Binary64

/-- The number nearest to a quotient; of two, the one with an even mantissa. -/
def round (num den : Nat) : Binary64 :=
  let scaled := num <<< 1074
  let exponent := (scaled / den).log2 - 52
  let mantissa := nearest scaled (den <<< exponent)
  if mantissa < 1 <<< 53 then ⟨mantissa, exponent⟩ else ⟨mantissa / 2, exponent + 1⟩

/-! ## arithmetic -/

/-- The number nearest to a natural number. -/
def ofNat (n : Nat) : Binary64 := round n 1

/-- The product, rounded. -/
def mul (a b : Binary64) : Binary64 :=
  round ((a.mantissa * b.mantissa) <<< (a.exponent + b.exponent)) (1 <<< 2148)

/-- The quotient, rounded. -/
def div (a b : Binary64) : Binary64 :=
  round (a.mantissa <<< a.exponent) (b.mantissa <<< b.exponent)

/-- The number is zero. -/
def isZero (a : Binary64) : Bool := a.mantissa = 0

/-- The number is too large to be represented. -/
def overflows (a : Binary64) : Bool := a.exponent > 2045

/-- A power of ten, rounded. -/
def powerOfTen (n : Nat) : Binary64 := ofNat (Nat.pow 10 n)

end Binary64

end LocaleAudit.Decimal
