import QueryTree.Value.Shortest

/-!
# Binary floating-point numbers

The values of the 64-bit binary format, read from its bit patterns and from those
of the 32-bit format, all of whose values it has. A number is written with the
fewest digits that read back as the same number.
-/

namespace QueryTree

/-- A value of the 64-bit binary format. A finite value is
`significand * 2 ^ exponent` with a sign. -/
inductive Binary64 where
  | nan
  | infinity (negative : Bool)
  | finite (negative : Bool) (significand : Nat) (exponent : Int)
deriving DecidableEq, Repr

namespace Binary64

/-- The number of bits after the leading bit of a normal significand. -/
def fractionBits : Nat := 52

/-- The exponent of the smallest significands. -/
def minExponent : Int := -1074

/-- The value of a 64-bit pattern. -/
def ofBits (bits : UInt64) : Binary64 :=
  let n := bits.toNat
  let negative := n / Nat.pow 2 63 == 1
  let biased : Nat := n / Nat.pow 2 52 % Nat.pow 2 11
  let fraction := n % Nat.pow 2 52
  if biased = 2047 then if fraction = 0 then infinity negative else nan
  else if biased = 0 then finite negative fraction minExponent
  else finite negative (Nat.pow 2 52 + fraction) ((biased : Int) - 1075)

/-- The value of a 32-bit pattern, brought to the exponents of the wider format. -/
def ofBits32 (bits : UInt32) : Binary64 :=
  let n := bits.toNat
  let negative := n / Nat.pow 2 31 == 1
  let biased : Nat := n / Nat.pow 2 23 % Nat.pow 2 8
  let fraction := n % Nat.pow 2 23
  if biased = 255 then if fraction = 0 then infinity negative else nan
  else if biased = 0 then
    if fraction = 0 then finite negative 0 minExponent
    else
      let shift := fractionBits - Nat.log2 fraction
      finite negative (fraction * Nat.pow 2 shift) (-149 - (shift : Int))
  else finite negative ((Nat.pow 2 23 + fraction) * Nat.pow 2 29) ((biased : Int) - 179)

/-- The numbers that round to a finite value, around that value. Below a power of
two the neighbours are twice as close. -/
def target (significand : Nat) (exponent : Int) : Shortest.Target :=
  let narrow := significand = Nat.pow 2 fractionBits ∧ minExponent < exponent
  let unit := Nat.pow 2 (exponent - 2).toNat
  { low := (4 * significand - if narrow then 1 else 2) * unit
    value := 4 * significand * unit
    high := (4 * significand + 2) * unit
    denominator := Nat.pow 2 (2 - exponent).toNat
    closed := significand % 2 == 0 }

/-- Numbers from this power of ten on are written with an exponent. -/
def positionalEnd : Int := 16

/-- Numbers below this power of ten are written with an exponent. -/
def positionalStart : Int := -4

/-- Digits without the zeros at their end. -/
def dropTrailingZeros (digits : Text) : Text :=
  (digits.reverse.dropWhile (· == '0')).reverse

/-- Writes digits of which the first stands for a multiple of `10 ^ k`. Without an
exponent there is at least one decimal place. -/
def layout (digits : Text) (k : Int) : Text :=
  if k < positionalStart ∨ positionalEnd ≤ k then
    let exponent := (if k < 0 then ['-'] else []) ++ Text.ofNat k.natAbs
    digits.take 1 ++ (if digits.length ≤ 1 then [] else '.' :: digits.drop 1) ++
      'e' :: exponent
  else if k < 0 then
    "0.".toList ++ List.replicate (k.natAbs - 1) '0' ++ digits
  else
    let whole := digits.take (k.toNat + 1)
    let places := digits.drop (k.toNat + 1)
    whole ++ List.replicate (k.toNat + 1 - whole.length) '0' ++ '.' ::
      (if places.isEmpty then ['0'] else places)

/-- The written form of a value. -/
def toText : Binary64 → Text
  | nan => "NaN".toList
  | infinity negative => (if negative then ['-'] else []) ++ "Infinity".toList
  | finite negative significand exponent =>
    let sign := if negative then ['-'] else []
    if significand = 0 then sign ++ "0.0".toList
    else
      let (n, e) := Shortest.shortest (target significand exponent)
      let digits := Text.ofNat n
      sign ++ layout (dropTrailingZeros digits) (e + digits.length - 1)

end Binary64

end QueryTree
