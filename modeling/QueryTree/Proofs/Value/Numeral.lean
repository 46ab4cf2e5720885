import Mathlib.Algebra.Order.Field.Rat
import Mathlib.Algebra.Order.Field.Power
import Mathlib.Data.List.TakeWhile
import QueryTree.Proofs.Value.Digits

/-!
# Numbers in decimal notation

A numeral has a sign, digits in front of a point and behind it, and a power of ten after an
exponent mark. Underscores among its digits mean nothing. A numeral denotes a rational number,
and the literal of an integer or a decimal denotes this integer or this decimal.
-/

namespace QueryTree

namespace Text

/-- The digits of a text. -/
def digits (t : Text) : Text :=
  t.filter Char.isDigit

/-- What stands in front of the point. -/
def wholePart (t : Text) : Text :=
  t.takeWhile (· != '.')

/-- What stands behind the point. -/
def placesPart (t : Text) : Text :=
  (t.dropWhile (· != '.')).tail

/-- What stands in front of the exponent mark. -/
def beforeMark (t : Text) : Text :=
  t.takeWhile fun c => !Decimal.isExponentMark c

/-- The exponent mark and what stands behind it. -/
def fromMark (t : Text) : Text :=
  t.dropWhile fun c => !Decimal.isExponentMark c

end Text

/-- A number with a sign. -/
def signed (negative : Bool) (x : ℚ) : ℚ :=
  if negative then -x else x

/-- An integer is its absolute value with its sign. -/
theorem signed_natAbs (n : Int) : signed (decide (n < 0)) (n.natAbs : ℚ) = n := by
  rw [Nat.cast_natAbs, Int.cast_abs, signed]
  rcases Int.lt_or_le n 0 with hn | hn
  · rw [if_pos (decide_eq_true hn), abs_of_neg (Int.cast_lt_zero.mpr hn), neg_neg]
  · rw [if_neg (by simpa using hn), abs_of_nonneg (Int.cast_nonneg hn)]

/-- A number in decimal notation, read but not evaluated. -/
structure Numeral where
  negative : Bool
  whole : Text
  places : Text
  power : Int
deriving DecidableEq

namespace Numeral

/-- The number in front of the exponent. -/
def significand (x : Numeral) : ℚ :=
  signed x.negative
    (Text.decimalValue (Text.digits (x.whole ++ x.places)) / 10 ^ (Text.digits x.places).length)

/-- The number that a numeral denotes. -/
def value (x : Numeral) : ℚ :=
  x.significand * 10 ^ x.power

/-- Digits after an optional plus. -/
def unsigned? : Text → Option Nat
  | '+' :: t => Text.digits? t
  | t => Text.digits? t

/-- The power of ten that an exponent mark and what stands behind it say. -/
def power? : Text → Option Int
  | [] => some 0
  | _ :: '-' :: t => (unsigned? t).map fun (n : Nat) => -(n : Int)
  | _ :: t => (unsigned? t).map fun (n : Nat) => (n : Int)

/-- Reads a numeral: an optional sign, digits and underscores with at most one point and at
least one digit, and an optional exponent. -/
def ofText? (t : Text) : Option Numeral :=
  let signed := Text.splitSign t.beforeMark
  if (signed.2.wholePart ++ signed.2.placesPart).all Decimal.isDigitOrGap &&
      signed.2.any Char.isDigit then
    (power? t.fromMark).map fun power =>
      { negative := signed.1, whole := signed.2.wholePart, places := signed.2.placesPart, power }
  else none

end Numeral

/-- The number that a decimal stands for. -/
def Decimal.value (d : Decimal) : ℚ :=
  signed d.negative (d.mantissa / 10 ^ d.scale)

namespace Text

theorem digits_cons_of_isDigit {c : Char} (h : c.isDigit = true) (t : Text) :
    digits (c :: t) = c :: digits t :=
  List.filter_cons_of_pos h

theorem digits_cons_of_not_isDigit {c : Char} (h : c.isDigit = false) (t : Text) :
    digits (c :: t) = digits t :=
  List.filter_cons_of_neg (Bool.eq_false_iff.mp h)

theorem digits_of_isDigit {t : Text} (h : ∀ c ∈ t, c.isDigit = true) : digits t = t :=
  List.filter_eq_self.mpr h

section Marks

variable {t : Text}

theorem beforeMark_eq_self (h : ∀ c ∈ t, Decimal.isExponentMark c = false) :
    t.beforeMark = t :=
  List.takeWhile_eq_self_iff.mpr fun c hc => by rw [h c hc]; rfl

theorem fromMark_eq_nil (h : ∀ c ∈ t, Decimal.isExponentMark c = false) : t.fromMark = [] :=
  List.dropWhile_eq_nil_iff.mpr fun c hc => by rw [h c hc]; rfl

end Marks

section Point

variable {whole places : Text}

@[simp] theorem wholePart_point_cons (t : Text) : wholePart ('.' :: t) = [] := rfl

@[simp] theorem placesPart_point_cons (t : Text) : placesPart ('.' :: t) = t := rfl

theorem wholePart_cons {c : Char} (h : c ≠ '.') (t : Text) :
    wholePart (c :: t) = c :: wholePart t :=
  List.takeWhile_cons_of_pos (bne_iff_ne.mpr h)

theorem placesPart_cons {c : Char} (h : c ≠ '.') (t : Text) :
    placesPart (c :: t) = placesPart t :=
  congrArg List.tail (List.dropWhile_cons_of_pos (bne_iff_ne.mpr h))

theorem wholePart_eq_self (h : ∀ c ∈ whole, c ≠ '.') : whole.wholePart = whole :=
  List.takeWhile_eq_self_iff.mpr fun c hc => bne_iff_ne.mpr (h c hc)

theorem placesPart_eq_nil (h : ∀ c ∈ whole, c ≠ '.') : whole.placesPart = [] := by
  rw [placesPart, List.dropWhile_eq_nil_iff.mpr fun c hc => bne_iff_ne.mpr (h c hc), List.tail_nil]

theorem wholePart_append (h : ∀ c ∈ whole, c ≠ '.') :
    wholePart (whole ++ '.' :: places) = whole := by
  rw [wholePart, List.takeWhile_append_of_pos fun c hc => bne_iff_ne.mpr (h c hc)]
  simp

theorem placesPart_append (h : ∀ c ∈ whole, c ≠ '.') :
    placesPart (whole ++ '.' :: places) = places := by
  rw [placesPart, List.dropWhile_append_of_pos fun c hc => bne_iff_ne.mpr (h c hc)]
  simp

end Point

/-- A sign in front of a digit is split off. -/
theorem splitSign_minus (negative : Bool) (unsigned : Text)
    (h : ∀ c ∈ unsigned.head?, c.isDigit = true) :
    splitSign ((if negative then ['-'] else []) ++ unsigned) = (negative, unsigned) := by
  cases negative with
  | true => rfl
  | false =>
      cases unsigned with
      | nil => rfl
      | cons c t => exact splitSign_of_isDigit (h c rfl) t

end Text

namespace Numeral

variable {whole places : Text}

/-- A numeral of digits, with a point if there are decimal places and with no exponent, is read
as it stands. -/
theorem ofText?_of_isDigit (hwhole : ∀ c ∈ whole, c.isDigit = true) (hne : whole ≠ [])
    (hplaces : ∀ c ∈ places, c.isDigit = true) (negative : Bool) :
    ofText? ((if negative then ['-'] else []) ++
        (whole ++ if places = [] then [] else '.' :: places)) =
      some ⟨negative, whole, places, 0⟩ := by
  have hpoint : ∀ c ∈ whole, c ≠ '.' := by
    rintro c hc rfl
    cases hwhole _ hc
  have hparts : Text.wholePart (whole ++ if places = [] then [] else '.' :: places) = whole ∧
      Text.placesPart (whole ++ if places = [] then [] else '.' :: places) = places := by
    split
    · next hnil =>
        rw [List.append_nil]
        exact ⟨Text.wholePart_eq_self hpoint, hnil ▸ Text.placesPart_eq_nil hpoint⟩
    · exact ⟨Text.wholePart_append hpoint, Text.placesPart_append hpoint⟩
  have hmark : ∀ c ∈ (if negative then ['-'] else []) ++
      (whole ++ if places = [] then [] else '.' :: places),
      Decimal.isExponentMark c = false := by
    have hdigit : ∀ c : Char, c.isDigit = true → Decimal.isExponentMark c = false := by
      intro c hc
      apply Bool.eq_false_iff.mpr
      intro hmark
      rcases Bool.or_eq_true_iff.mp hmark with h | h <;> rw [beq_iff_eq.mp h] at hc <;> cases hc
    simp only [List.forall_mem_append]
    refine ⟨?_, fun c hc => hdigit c (hwhole c hc), ?_⟩
    · split
      · simp [Decimal.isExponentMark]
      · nofun
    · split
      · nofun
      · exact List.forall_mem_cons.mpr ⟨rfl, fun c hc => hdigit c (hplaces c hc)⟩
  have hsign := Text.splitSign_minus negative (whole ++ if places = [] then [] else '.' :: places)
    (by
      rw [List.head?_append_of_ne_nil _ hne]
      exact fun c hc => hwhole c (List.mem_of_mem_head? hc))
  have hall : (whole ++ places).all Decimal.isDigitOrGap = true := by
    simp only [List.all_eq_true, List.forall_mem_append, Decimal.isDigitOrGap]
    exact ⟨fun c hc => by rw [hwhole c hc]; rfl, fun c hc => by rw [hplaces c hc]; rfl⟩
  have hany : (whole ++ if places = [] then [] else '.' :: places).any Char.isDigit = true := by
    obtain ⟨c, t, rfl⟩ := List.exists_cons_of_ne_nil hne
    exact List.any_eq_true.mpr ⟨c, List.mem_cons_self, hwhole c List.mem_cons_self⟩
  simp only [ofText?, Text.beforeMark_eq_self hmark, Text.fromMark_eq_nil hmark, hsign, hparts,
    hall, hany]
  rfl

theorem value_of_isDigit (hwhole : ∀ c ∈ whole, c.isDigit = true)
    (hplaces : ∀ c ∈ places, c.isDigit = true) (negative : Bool) :
    value ⟨negative, whole, places, 0⟩ =
      signed negative (Text.decimalValue (whole ++ places) / 10 ^ places.length) := by
  rw [value, significand, Text.digits_of_isDigit (List.forall_mem_append.mpr ⟨hwhole, hplaces⟩),
    Text.digits_of_isDigit hplaces, zpow_zero, mul_one]

end Numeral

namespace Value

/-- The literal of an integer denotes it. -/
theorem exists_numeral_integerText (n : Int) :
    ∃ l, Numeral.ofText? (integerText n) = some l ∧ l.value = n := by
  have hdigits : ∀ c ∈ Text.ofNat n.natAbs, c.isDigit = true := fun c hc =>
    Text.isDigit_of_mem_ofNat hc
  have hplaces : ∀ c ∈ ([] : Text), c.isDigit = true := nofun
  have hread := Numeral.ofText?_of_isDigit hdigits (Text.ofNat_ne_nil _) hplaces (decide (n < 0))
  have htext : integerText n = (if decide (n < 0) = true then ['-'] else []) ++
      (Text.ofNat n.natAbs ++ if ([] : Text) = [] then [] else '.' :: []) := by
    simp [integerText]
  refine ⟨_, htext ▸ hread, ?_⟩
  rw [Numeral.value_of_isDigit hdigits hplaces, List.append_nil, Text.decimalValue_ofNat,
    List.length_nil, pow_zero, div_one]
  exact signed_natAbs n

/-- The literal of a decimal denotes it. -/
theorem exists_numeral_toText (d : Decimal) :
    ∃ l, Numeral.ofText? d.toText = some l ∧ l.value = d.value := by
  have hlength := Text.le_length_ofNatPadded (d.scale + 1) d.mantissa
  have hdigits : ∀ c ∈ Text.ofNatPadded (d.scale + 1) d.mantissa, c.isDigit = true :=
    fun c hc => Text.isDigit_of_mem_ofNatPadded hc
  have hvalue : Text.decimalValue (Text.ofNatPadded (d.scale + 1) d.mantissa) = d.mantissa :=
    Text.decimalValue_ofNatPadded _ _
  generalize hpadded : Text.ofNatPadded (d.scale + 1) d.mantissa = digits at *
  have hwhole : ∀ c ∈ digits.take (digits.length - d.scale), c.isDigit = true :=
    fun c hc => hdigits c (List.mem_of_mem_take hc)
  have hplaces : ∀ c ∈ digits.drop (digits.length - d.scale), c.isDigit = true :=
    fun c hc => hdigits c (List.mem_of_mem_drop hc)
  have hscale : (digits.drop (digits.length - d.scale)).length = d.scale := by
    rw [List.length_drop]
    omega
  have hne : digits.take (digits.length - d.scale) ≠ [] := by
    rw [← List.length_pos_iff, List.length_take]
    omega
  have hread := Numeral.ofText?_of_isDigit hwhole hne hplaces d.negative
  have hnil : digits.drop (digits.length - d.scale) = [] ↔ d.scale = 0 := by
    rw [← List.length_eq_zero_iff, hscale]
  have htext : d.toText = (if d.negative then ['-'] else []) ++
      (digits.take (digits.length - d.scale) ++
        if digits.drop (digits.length - d.scale) = [] then []
        else '.' :: digits.drop (digits.length - d.scale)) := by
    simp only [Decimal.toText, hpadded, hnil, List.append_assoc]
  refine ⟨_, htext ▸ hread, ?_⟩
  rw [Numeral.value_of_isDigit hwhole hplaces, List.take_append_drop, hvalue, hscale, Decimal.value]

end Value

end QueryTree
