import QueryTree.Text

/-!
# Decimals

Decimals come from a library of fixed-point numbers that is only relied on: it is
not a part of this one, and what values need of it is written out here as it is
documented. A decimal is `m / 10 ^ s` with a sign, where `m` is below two to the
96th and `s` is at most 28. The number of decimal places belongs to the decimal, so
zeros at the end are kept, and it is written with exactly its decimal places. Text
is read as a decimal with a sign, with underscores between digits and with a point,
and otherwise with an exponent. Digits that do not fit behind the point are rounded
away, halves away from zero, and a number that does not fit in front of it is
refused. What is proved of typed values without all of this is proved for any
`Value.Forms`.
-/

namespace QueryTree

namespace Decimal

/-- Mantissas are below this bound. -/
def mantissaLimit : Nat := Nat.pow 2 96

/-- The greatest number of decimal places. -/
def maxScale : Nat := 28

end Decimal

/-- The number `mantissa / 10 ^ scale` with a sign. Zero may be negative. -/
structure Decimal where
  negative : Bool
  mantissa : Nat
  scale : Nat
  mantissa_lt : mantissa < Decimal.mantissaLimit
  scale_le : scale ≤ Decimal.maxScale
deriving DecidableEq

namespace Decimal

/-- The part of a decimal that is read digit by digit, without its sign. -/
structure Magnitude where
  mantissa : Nat
  scale : Nat
deriving DecidableEq, Repr

/-- A decimal with a sign and a magnitude, if the magnitude is in range. -/
def ofMagnitude? (negative : Bool) (m : Magnitude) : Option Decimal :=
  if h : m.mantissa < mantissaLimit ∧ m.scale ≤ maxScale then
    some ⟨negative, m.mantissa, m.scale, h.1, h.2⟩
  else none

/-- An unsigned number of 64 bits, without decimal places. -/
def ofUInt64 (n : UInt64) : Decimal where
  negative := false
  mantissa := n.toNat
  scale := 0
  mantissa_lt := Nat.lt_trans n.toNat_lt (by decide)
  scale_le := by decide

/-- The decimal written out: the sign, at least one digit, and the decimal places
after a point. -/
def toText (d : Decimal) : Text :=
  let digits := Text.ofNatPadded (d.scale + 1) d.mantissa
  let whole := digits.take (digits.length - d.scale)
  let places := digits.drop (digits.length - d.scale)
  (if d.negative then ['-'] else []) ++ whole ++ (if d.scale = 0 then [] else '.' :: places)

/-- The characters that may stand where digits are rounded away. -/
def isDigitOrGap (c : Char) : Bool :=
  c.isDigit || c == '_'

/-- Rounds by the first of the characters that are left, of which all have to be
digits or underscores. A mantissa that grows past its bound gives up its last
decimal place. -/
def roundOff (m : Magnitude) (left : Text) : Option Magnitude :=
  if !left.all isDigitOrGap then none
  else if (left.head?.map Text.digitValue).getD 0 < 5 then some m
  else if m.mantissa + 1 < mantissaLimit then some { m with mantissa := m.mantissa + 1 }
  else if m.scale = 0 then none
  else some { mantissa := (m.mantissa + 1 + 4) / 10, scale := m.scale - 1 }

/-- From this mantissa on, underscores after the last decimal place are skipped
before rounding. Below it an underscore there counts as the digit zero. -/
def wideMantissa : Nat := 1844674407370954906

/-- Reads digits, underscores and one point after what has been read, with marks
for a point and for a digit among it. -/
def readDigits (m : Magnitude) (point digit : Bool) : Text → Option Magnitude
  | [] => if digit then some m else none
  | c :: rest =>
    if c.isDigit then
      let grown : Magnitude :=
        { mantissa := 10 * m.mantissa + Text.digitValue c
          scale := if point then m.scale + 1 else m.scale }
      if mantissaLimit ≤ grown.mantissa then
        if point then roundOff m (c :: rest) else none
      else if point && maxScale ≤ grown.scale then
        roundOff grown (if wideMantissa ≤ m.mantissa then rest.dropWhile (· == '_') else rest)
      else readDigits grown point true rest
    else if c == '.' && !point then readDigits m true digit rest
    else if c == '_' && digit then readDigits m point digit rest
    else none

/-- A sign and a magnitude without an exponent. Zero has no sign. -/
def readPlain (t : Text) : Option (Bool × Magnitude) :=
  let (negative, unsigned) := Text.splitSign t
  (readDigits { mantissa := 0, scale := 0 } false false unsigned).map fun m =>
    (negative && m.mantissa != 0, m)

/-- Exponents are below this bound. -/
def exponentLimit : Nat := Nat.pow 2 32

/-- Moves the point to the left. Decimal places past the last are rounded away,
halves away from zero. -/
def shiftLeft (m : Magnitude) (places : Nat) : Option Magnitude :=
  if maxScale < places then none
  else if maxScale < m.scale + places then
    let unit := Nat.pow 10 (m.scale + places - maxScale)
    some { mantissa := (2 * m.mantissa + unit) / (2 * unit), scale := maxScale }
  else some { m with scale := m.scale + places }

/-- Moves the point to the right, past the end if need be. -/
def shiftRight (m : Magnitude) (places : Nat) : Option Magnitude :=
  if places ≤ m.scale then some { m with scale := m.scale - places }
  else if maxScale < places then none
  else some { mantissa := m.mantissa * Nat.pow 10 (places - m.scale), scale := 0 }

/-- Moves the point as an exponent says: to the left after a minus. -/
def readExponent (m : Magnitude) : Text → Option Magnitude
  | '-' :: places => (Text.unsigned? exponentLimit places).bind (shiftLeft m)
  | places => (Text.unsigned? exponentLimit places).bind (shiftRight m)

/-- The letter before an exponent. -/
def isExponentMark (c : Char) : Bool :=
  c == 'e' || c == 'E'

/-- A sign and a magnitude with an exponent after the first mark. -/
def readScientific (t : Text) : Option (Bool × Magnitude) :=
  match t.dropWhile fun c => !isExponentMark c with
  | [] => none
  | _ :: exponent => do
    let (negative, m) ← readPlain (t.takeWhile fun c => !isExponentMark c)
    return (negative, ← readExponent m exponent)

/-- The decimal that a text denotes. -/
def ofText? (t : Text) : Option Decimal :=
  ((readPlain t).or (readScientific t)).bind fun (negative, m) => ofMagnitude? negative m

end Decimal

end QueryTree
