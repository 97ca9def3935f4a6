/-!
# LocaleAudit.Text.Utf16

Text as UTF-16 code units. Escapes in string literals name single units, so the halves of a
surrogate pair can arrive one by one, and one of them can be missing.
-/

namespace LocaleAudit.Text.Utf16

/-! ## units of characters -/

/-- The first half of a surrogate pair. -/
def isHigh (unit : Nat) : Bool := 0xd800 ≤ unit && unit < 0xdc00

/-- The second half of a surrogate pair. -/
def isLow (unit : Nat) : Bool := 0xdc00 ≤ unit && unit < 0xe000

/-- The code units of a code point. -/
def unitsOf (codePoint : Nat) : List Nat :=
  if codePoint < 0x10000 then [codePoint]
  else
    let rest := codePoint - 0x10000
    [0xd800 + rest / 0x400, 0xdc00 + rest % 0x400]

/-- The code units of a text. -/
def units (text : List Char) : List Nat := text.flatMap fun c => unitsOf c.toNat

/-- The code point that a surrogate pair stands for. -/
def join (high low : Nat) : Nat := 0x10000 + (high - 0xd800) * 0x400 + (low - 0xdc00)

/-! ## decoding -/

/-- The characters of a sequence of code units, `none` for each half without its other half. -/
def decode : List Nat → List (Option Char)
  | [] => []
  | [u] => [if isHigh u || isLow u then none else some (Char.ofNat u)]
  | u :: v :: rest =>
    if isHigh u then
      if isLow v then some (Char.ofNat (join u v)) :: decode rest
      else none :: decode (v :: rest)
    else if isLow u then none :: decode (v :: rest)
    else some (Char.ofNat u) :: decode (v :: rest)

/-- The character that stands for what cannot be decoded. -/
def replacement : Char := '\ufffd'

/-- Decoding that puts one replacement character for each half without its other half. -/
def decodeLossy (us : List Nat) : List Char := (decode us).map (·.getD replacement)

/-- Decoding that gives no text when a half is without its other half. -/
def decode? (us : List Nat) : Option (List Char) := (decode us).mapM id

end LocaleAudit.Text.Utf16
