import QueryTree.Proofs.Value.Integer
import QueryTree.Proofs.Value.Rounding

/-!
# Typed numbers

A typed text that becomes an integer or a decimal is a numeral. The literal of the value
denotes the same number if a decimal has room for this number and for the one in front of its
exponent, and another number otherwise. Which numbers are kept is up to the reader of decimals.
Whatever the written forms of decimals are, a typed number is kept if and only if that reader
keeps it.
-/

namespace QueryTree

namespace Text

theorem mem_parts {c : Char} {t : Text} (h : c ∈ t) :
    c ∈ t.wholePart ++ t.placesPart ∨ c = '.' := by
  rw [← List.takeWhile_append_dropWhile (p := (· != '.')) (l := t), List.mem_append] at h
  rcases h with h | h
  · exact Or.inl (List.mem_append_left _ h)
  · cases hrest : t.dropWhile (· != '.') with
    | nil =>
        rw [hrest] at h
        cases h
    | cons d rest =>
        have hd : d = '.' := by
          have hhead := List.head?_dropWhile_not (· != '.') t
          rw [hrest] at hhead
          simpa using hhead
        rw [hrest, List.mem_cons] at h
        rcases h with h | h
        · exact Or.inr (h.trans hd)
        · refine Or.inl (List.mem_append_right _ ?_)
          rwa [placesPart, hrest]

/-- What stands in front of the digits is nothing or a sign. -/
theorem mem_splitSign {c : Char} {t : Text} (h : c ∈ t) :
    c ∈ (splitSign t).2 ∨ c = '-' ∨ c = '+' := by
  unfold splitSign
  split
  · exact (List.mem_cons.mp h).symm.imp_right Or.inl
  · exact (List.mem_cons.mp h).symm.imp_right Or.inr
  · exact Or.inl h

end Text

namespace Decimal

theorem isExponentMark_eq_false {c : Char}
    (h : isDigitOrGap c = true ∨ c = '.' ∨ c = '-' ∨ c = '+') :
    isExponentMark c = false := by
  apply Bool.eq_false_iff.mpr
  intro hmark
  rcases Bool.or_eq_true_iff.mp hmark with hc | hc <;> rw [beq_iff_eq.mp hc] at h <;> revert h <;>
    decide

/-- A number without an exponent has no exponent mark. -/
theorem IsUnsigned.isExponentMark_eq_false {t : Text} (h : IsUnsigned false (Text.splitSign t).2) :
    ∀ c ∈ t, isExponentMark c = false := by
  intro c hc
  apply Decimal.isExponentMark_eq_false
  rcases Text.mem_splitSign hc with hc | hc
  · exact (Text.mem_parts hc).imp (List.all_eq_true.mp h c) Or.inl
  · exact Or.inr (Or.inr hc)

/-- Digits alone are a whole number. -/
theorem IsUnsigned.of_isDigit {t : Text} (h : ∀ c ∈ t, c.isDigit = true) :
    IsUnsigned false t ∧ t.wholePart = t ∧ t.placesPart = [] := by
  have hpoint : ∀ c ∈ t, c ≠ '.' := by
    rintro c hc rfl
    cases h _ hc
  have hwhole := Text.wholePart_eq_self hpoint
  have hplaces := Text.placesPart_eq_nil hpoint
  refine ⟨?_, hwhole, hplaces⟩
  change (t.wholePart ++ t.placesPart).all isDigitOrGap = true
  rw [hwhole, hplaces, List.append_nil, List.all_eq_true]
  intro c hc
  rw [isDigitOrGap, h c hc, Bool.true_or]

end Decimal

namespace Numeral

open Decimal

/-- The numeral with a text in front of its exponent. -/
def ofBase (base : Text) (power : Int) : Numeral where
  negative := (Text.splitSign base).1
  whole := (Text.splitSign base).2.wholePart
  places := (Text.splitSign base).2.placesPart
  power := power

/-- A numeral is read from a text in front of an exponent and from the exponent. -/
theorem ofText?_eq_some {t : Text} {power : Int}
    (hbase : IsUnsigned false (Text.splitSign t.beforeMark).2)
    (hdigit : (Text.splitSign t.beforeMark).2.any Char.isDigit = true)
    (hpower : power? t.fromMark = some power) :
    ofText? t = some (ofBase t.beforeMark power) := by
  have hall : ((Text.splitSign t.beforeMark).2.wholePart ++
      (Text.splitSign t.beforeMark).2.placesPart).all isDigitOrGap = true := hbase
  rw [ofText?, hall, hdigit, hpower]
  rfl

theorem ofText?_eq_some_of_unsigned {t : Text} (h : IsUnsigned false (Text.splitSign t).2)
    (hdigit : (Text.splitSign t).2.any Char.isDigit = true) : ofText? t = some (ofBase t 0) := by
  have hbefore := Text.beforeMark_eq_self h.isExponentMark_eq_false
  have hfrom := Text.fromMark_eq_nil h.isExponentMark_eq_false
  have hread : ofText? t = some (ofBase t.beforeMark 0) :=
    ofText?_eq_some (by rwa [hbefore]) (by rwa [hbefore]) (by rw [hfrom]; rfl)
  rwa [hbefore] at hread

/-- The number in front of the exponent is what a reader without limits reads. -/
theorem significand_ofBase (base : Text) (power : Int) :
    (ofBase base power).significand = signed (Text.splitSign base).1
      (readExactly ⟨0, 0⟩ false (Text.splitSign base).2).value := by
  rw [readExactly_false, Magnitude.value, Nat.mul_zero, Nat.zero_add, Nat.zero_add]
  rfl

theorem unsigned?_eq_some {bound n : Nat} {t : Text} (h : Text.unsigned? bound t = some n) :
    unsigned? t = some n := by
  have hread := (Option.filter_eq_some_iff.mp h).1
  unfold unsigned?
  split
  · exact hread
  · next hplus =>
      split at hread
      · next rest => exact absurd rfl (hplus rest)
      · exact hread

end Numeral

namespace Decimal

section Parts

variable {m r : Magnitude} {t : Text} {negative : Bool}

/-- An exponent moves the point as it says, if there is room for the result. If the result is
right, there has been room for the number in front of the exponent. -/
theorem readExponent_keeps {exponent : Text} (hm : m.InRange) (mark : Char)
    (h : readExponent m exponent = some r) :
    ∃ power : Int, Numeral.power? (mark :: exponent) = some power ∧
      (Fits (m.value * 10 ^ power) → r.value = m.value * 10 ^ power) ∧
      (r.InRange → ∀ x, r.value = x * 10 ^ power → Fits x) := by
  unfold readExponent at h
  split at h
  · next places =>
      obtain ⟨n, hn, hshift⟩ := Option.bind_eq_some_iff.mp h
      have hpower : Numeral.power? (mark :: '-' :: places) = some (-(n : Int)) := by
        rw [Numeral.power?, Numeral.unsigned?_eq_some hn, Option.map_some]
      refine ⟨_, hpower, ?_⟩
      simp only [zpow_neg, zpow_natCast, ← div_eq_mul_inv]
      exact shiftLeft_keeps hm hshift
  · next hminus =>
      obtain ⟨n, hn, hshift⟩ := Option.bind_eq_some_iff.mp h
      have hpower : Numeral.power? (mark :: exponent) = some (n : Int) := by
        rw [Numeral.power?, Numeral.unsigned?_eq_some hn, Option.map_some]
        exact fun places hcover => hminus places hcover
      have hvalue := shiftRight_keeps hshift
      refine ⟨_, hpower, ?_⟩
      simp only [zpow_natCast]
      refine ⟨fun _ => hvalue, fun _ x hx => ⟨m, hm, ?_⟩⟩
      have hpow : (10 : ℚ) ^ n ≠ 0 := by positivity
      exact mul_right_cancel₀ hpow (hvalue.symm.trans hx)

/-- What is read without an exponent is a numeral without one. -/
theorem readPlain_keeps (h : readPlain t = some (negative, m)) :
    IsUnsigned false (Text.splitSign t).2 ∧ (Text.splitSign t).2.any Char.isDigit = true ∧
      negative = ((Text.splitSign t).1 && m.mantissa != 0) ∧ m.InRange ∧
      (Fits (readExactly ⟨0, 0⟩ false (Text.splitSign t).2).value →
        m.value = (readExactly ⟨0, 0⟩ false (Text.splitSign t).2).value) := by
  obtain ⟨read, hread, hsign⟩ := Option.map_eq_some_iff.mp h
  obtain ⟨rfl, rfl⟩ := Prod.mk.inj hsign
  obtain ⟨hunsigned, hdigit⟩ := readDigits_shape _ _ _ _ hread
  obtain ⟨hrange, hkept⟩ := readDigits_keeps ⟨0, 0⟩ false false _ ⟨by decide, rfl⟩ hread
  exact ⟨hunsigned, hdigit, rfl, hrange, hkept⟩

theorem readScientific_eq_some (h : readScientific t = some (negative, r)) :
    ∃ mark exponent m, t.fromMark = mark :: exponent ∧
      readPlain t.beforeMark = some (negative, m) ∧ readExponent m exponent = some r := by
  unfold readScientific at h
  split at h
  · cases h
  · next mark exponent hmark =>
      obtain ⟨⟨negative', m⟩, hbase, h⟩ := Option.bind_eq_some_iff.mp h
      obtain ⟨r', hexponent, h⟩ := Option.bind_eq_some_iff.mp h
      obtain ⟨rfl, rfl⟩ := Prod.mk.inj (Option.some.inj h)
      exact ⟨mark, exponent, m, hmark, hbase, hexponent⟩

theorem ofMagnitude?_eq_some {d : Decimal} (h : ofMagnitude? negative r = some d) :
    r.InRange ∧ d.value = signed negative r.value := by
  unfold ofMagnitude? at h
  split at h
  · next hrange =>
      obtain rfl := Option.some.inj h
      exact ⟨hrange, rfl⟩
  · cases h

end Parts

/-- A number is read in two steps, first the digits and then the exponent. If each step keeps
what there is room for, the result is right if and only if there is room for both numbers. -/
theorem kept_iff {x : ℚ} (hx : 0 ≤ x) {m r : Magnitude} (hm : m.InRange) (hr : r.InRange)
    (sign : Bool) {power : Int} (hdigits : Fits x → m.value = x)
    (hmoved : Fits (m.value * 10 ^ power) → r.value = m.value * 10 ^ power)
    (hback : r.InRange → ∀ y, r.value = y * 10 ^ power → Fits y) :
    signed (sign && m.mantissa != 0) r.value = signed sign x * 10 ^ power ↔
      Holds (signed sign x) ∧ Holds (signed sign x * 10 ^ power) := by
  -- a zero has lost its sign, but then the result is a zero, too
  have hzero : signed (sign && m.mantissa != 0) r.value = signed sign r.value := by
    by_cases hmantissa : m.mantissa = 0
    · have hvalue : m.value = 0 := by
        rw [Magnitude.value, hmantissa, Nat.cast_zero, zero_div]
      have hresult : r.value = 0 := by
        rw [hvalue, zero_mul] at hmoved
        exact hmoved ⟨m, hm, hvalue⟩
      rw [hresult]
      cases sign <;> simp [signed]
    · rw [bne_iff_ne.mpr hmantissa, Bool.and_true]
  have hpow : (0 : ℚ) ≤ 10 ^ power := by positivity
  rw [hzero, signed_mul, signed_inj, holds_signed hx, holds_signed (mul_nonneg hx hpow)]
  constructor
  · intro hresult
    exact ⟨hback hr x hresult, r, hr, hresult⟩
  · rintro ⟨hbase, hfits⟩
    rw [← hdigits hbase] at hfits ⊢
    exact hmoved hfits

/-- A text that is read as a decimal is a numeral, and its number is kept if and only if there
is a decimal for it and one for the number in front of its exponent. -/
theorem ofText?_keeps {t : Text} {d : Decimal} (h : ofText? t = some d) :
    ∃ x, Numeral.ofText? t = some x ∧
      (d.value = x.value ↔ Holds x.significand ∧ Holds x.value) := by
  obtain ⟨⟨negative, r⟩, hread, hd⟩ := Option.bind_eq_some_iff.mp h
  obtain ⟨hr, hvalue⟩ := ofMagnitude?_eq_some hd
  rw [hvalue]
  rcases Option.or_eq_some_iff.mp hread with hplain | ⟨_, hscientific⟩
  · obtain ⟨hunsigned, hdigit, rfl, hrange, hkept⟩ := readPlain_keeps hplain
    refine ⟨_, Numeral.ofText?_eq_some_of_unsigned hunsigned hdigit, ?_⟩
    rw [Numeral.value, Numeral.significand_ofBase]
    refine kept_iff (Magnitude.value_nonneg _) hrange hr _ hkept ?_ ?_
    · exact fun _ => (mul_one _).symm
    · exact fun _ y hy => ⟨r, hr, hy.trans (mul_one y)⟩
  · obtain ⟨mark, exponent, m, hmark, hbase, hexponent⟩ := readScientific_eq_some hscientific
    obtain ⟨hunsigned, hdigit, rfl, hrange, hkept⟩ := readPlain_keeps hbase
    obtain ⟨power, hpower, hmoved, hback⟩ := readExponent_keeps hrange mark hexponent
    refine ⟨_, Numeral.ofText?_eq_some hunsigned hdigit (hmark ▸ hpower), ?_⟩
    rw [Numeral.value, Numeral.significand_ofBase]
    exact kept_iff (Magnitude.value_nonneg _) hrange hr _ hkept hmoved hback

theorem holds_toInt (n : Int64) : Holds n.toInt := by
  have hlow := n.le_toInt
  have hhigh := n.toInt_lt
  have hlimit : n.toInt.natAbs < mantissaLimit := by
    rw [mantissaLimit, Nat.pow_eq]
    omega
  refine ⟨⟨decide (n.toInt < 0), n.toInt.natAbs, 0, hlimit, Nat.zero_le _⟩, ?_⟩
  change signed _ ((n.toInt.natAbs : ℚ) / 10 ^ 0) = n.toInt
  rw [pow_zero, div_one, signed_natAbs]

end Decimal

namespace Value

open Decimal

/-- The number of a value that is an integer or a decimal. -/
def number? : Value → Option ℚ
  | integer n => some n.toInt
  | decimal d => some d.value
  | _ => none

/-- A text that is read as an integer is a numeral of its number. -/
theorem integer?_keeps {t : Text} {n : Int64} (h : integer? t = some n) :
    ∃ x, Numeral.ofText? t = some x ∧ x.significand = n.toInt ∧ x.value = n.toInt := by
  unfold integer? at h
  rcases hsplit : Text.splitSign t with ⟨negative, unsigned⟩
  simp only [hsplit] at h
  split at h
  · cases h
  · next k hk =>
      obtain ⟨hne, hdigits, hvalue⟩ := Text.digits?_eq_some.mp hk
      generalize hnumber : (if negative = true then -(k : Int) else k) = number at h
      split at h
      · next hfits =>
          rw [Int64.toInt_minValue, Int64.toInt_maxValue] at hfits
          obtain rfl := Option.some.inj h
          rw [Int64.toInt_ofInt_of_le (by omega) (by omega)]
          obtain ⟨hunsigned, hwhole, hplaces⟩ := IsUnsigned.of_isDigit hdigits
          have hdigit : unsigned.any Char.isDigit = true := by
            obtain ⟨c, hc⟩ := List.exists_mem_of_ne_nil _ hne
            exact List.any_eq_true.mpr ⟨c, hc, hdigits c hc⟩
          have hbase : Numeral.ofBase t 0 = ⟨negative, unsigned, [], 0⟩ := by
            rw [Numeral.ofBase, hsplit, hwhole, hplaces]
          have hsigned : Numeral.value ⟨negative, unsigned, [], 0⟩ = number := by
            rw [Numeral.value_of_isDigit hdigits (List.forall_mem_nil _), List.append_nil, hvalue,
              List.length_nil, pow_zero, div_one, ← hnumber]
            cases negative <;> simp [signed]
          refine ⟨_, Numeral.ofText?_eq_some_of_unsigned (by rwa [hsplit]) (by rwa [hsplit]), ?_⟩
          rw [hbase, hsigned]
          refine ⟨?_, rfl⟩
          rw [← hsigned, Numeral.value, zpow_zero, mul_one]
      · cases h

section Forms

variable {forms : Forms}

/-- A typed text becomes a number only if it is read as an integer or as a decimal. -/
theorem ofTypedIn_cases (forms : Forms) (typed : Text) :
    (ofTypedIn forms typed false).number? = none ∨
      (∃ n, integer? typed = some n ∧ ofTypedIn forms typed false = integer n) ∨
      ∃ d, forms.readDecimal typed = some d ∧ ofTypedIn forms typed false = decimal d := by
  unfold ofTypedIn
  split
  · exact Or.inl rfl
  iterate 3
    split
    · exact Or.inl rfl
  cases integer? typed with
  | some n => exact Or.inr (Or.inl ⟨n, rfl, rfl⟩)
  | none =>
      cases forms.readDecimal typed with
      | some d => exact Or.inr (Or.inr ⟨d, rfl, rfl⟩)
      | none =>
          left
          cases forms.readTimestamp typed with
          | some t => rfl
          | none => rfl

/-- Whether decimals are read from numerals only, and are written as numerals of their number.
Reading keeps the number of the numerals that `kept` holds of and changes any other number. All
integers of 64 bits with a sign are kept. -/
structure Forms.Numerals (forms : Forms) (kept : Numeral → Prop) : Prop where
  read : ∀ t d, forms.readDecimal t = some d →
    ∃ x, Numeral.ofText? t = some x ∧ (d.value = x.value ↔ kept x)
  write : ∀ d, ∃ l, Numeral.ofText? (forms.writeDecimal d) = some l ∧ l.value = d.value
  integer : ∀ (n : Int64) (x : Numeral), x.significand = n.toInt → x.value = n.toInt → kept x

/-- With written forms of decimals that keep some numerals, a typed number is kept if and only if
its numeral is one of these. -/
theorem number_kept_iff {kept : Numeral → Prop} (hforms : forms.Numerals kept) (typed : Text)
    (h : ((ofTypedIn forms typed false).number?).isSome = true) :
    ∃ x l : Numeral, Numeral.ofText? typed = some x ∧
      Numeral.ofText? ((ofTypedIn forms typed false).literalIn forms) = some l ∧
      (ofTypedIn forms typed false).number? = some l.value ∧
      (l.value = x.value ↔ kept x) ∧
      ∀ n, ofTypedIn forms typed false = integer n → l.value = x.value := by
  rcases ofTypedIn_cases forms typed with hnone | ⟨n, hn, hvalue⟩ | ⟨d, hd, hvalue⟩
  · rw [hnone] at h
    cases h
  · obtain ⟨x, hx, hsignificand, hnumber⟩ := integer?_keeps hn
    obtain ⟨l, hl, hliteral⟩ := exists_numeral_integerText n.toInt
    have hkept : l.value = x.value := hliteral.trans hnumber.symm
    rw [hvalue]
    exact ⟨x, l, hx, hl, congrArg some hliteral.symm,
      iff_of_true hkept (hforms.integer n x hsignificand hnumber), fun _ _ => hkept⟩
  · obtain ⟨x, hx, hkept⟩ := hforms.read typed d hd
    obtain ⟨l, hl, hliteral⟩ := hforms.write d
    rw [hvalue]
    refine ⟨x, l, hx, hl, congrArg some hliteral.symm, ?_, nofun⟩
    rw [hliteral]
    exact hkept

/-- There has to be a decimal for a number and for what stands in front of its exponent. -/
theorem Forms.standard_numerals :
    Forms.standard.Numerals fun x => Holds x.significand ∧ Holds x.value where
  read _ _ := ofText?_keeps
  write := exists_numeral_toText
  integer n x hsignificand hvalue := by
    rw [hsignificand, hvalue]
    exact ⟨holds_toInt n, holds_toInt n⟩

end Forms

/-- A typed text that becomes a number is a numeral, and so is the literal of the value, which
denotes the number of the value. This is the number that has been typed if and only if there is
a decimal for it and one for the number in front of its exponent. An integer is always kept. -/
theorem typed_number_kept_iff_held (typed : Text)
    (h : ((ofTyped typed false).number?).isSome = true) :
    ∃ x l : Numeral, Numeral.ofText? typed = some x ∧
      Numeral.ofText? (ofTyped typed false).literal = some l ∧
      (ofTyped typed false).number? = some l.value ∧
      (l.value = x.value ↔ Holds x.significand ∧ Holds x.value) ∧
      ∀ n, ofTyped typed false = integer n → l.value = x.value :=
  number_kept_iff Forms.standard_numerals typed h

/-- Underscores, a sign, a fraction and an exponent are read and kept. -/
theorem typed_number_kept_iff_held_signed :
    ((ofTyped "-1_0.50e1".toList false).number?).isSome = true ∧
      ∃ x l : Numeral, Numeral.ofText? "-1_0.50e1".toList = some x ∧
        Numeral.ofText? (ofTyped "-1_0.50e1".toList false).literal = some l ∧
        (ofTyped "-1_0.50e1".toList false).number? = some l.value ∧
        (l.value = x.value ↔ Holds x.significand ∧ Holds x.value) ∧
        ∀ n, ofTyped "-1_0.50e1".toList false = integer n → l.value = x.value := by
  have hread : Decimal.ofText? "-1_0.50e1".toList = some ⟨true, 1050, 1, by decide, by decide⟩ := by
    decide +kernel
  have hvalue : ofTyped "-1_0.50e1".toList false = decimal ⟨true, 1050, 1, by decide, by decide⟩ :=
    (ofTypedIn_of_beginsInteger (c := '-') rfl "1_0.50e1".toList).2 _ (by decide) hread
  have hnumber : ((ofTyped "-1_0.50e1".toList false).number?).isSome = true := by
    rw [hvalue]
    rfl
  exact ⟨hnumber, typed_number_kept_iff_held _ hnumber⟩

/-- There is a decimal for this number, but the digits in front of the exponent have one place
too many. They are rounded to zero before the exponent is read. -/
theorem typed_number_rounded_before_exponent :
    ∃ x l : Numeral, Numeral.ofText? "0.00000000000000000000000000001e1".toList = some x ∧
      Numeral.ofText? (ofTyped "0.00000000000000000000000000001e1".toList false).literal = some l ∧
      (ofTyped "0.00000000000000000000000000001e1".toList false).number? = some l.value ∧
      x.value = 1 / 10 ^ 28 ∧ Holds x.value ∧ l.value = 0 := by
  have hread : Decimal.ofText? "0.00000000000000000000000000001e1".toList =
      some ⟨false, 0, 27, by decide, by decide⟩ := by
    decide +kernel
  have hvalue : ofTyped "0.00000000000000000000000000001e1".toList false =
      decimal ⟨false, 0, 27, by decide, by decide⟩ :=
    (ofTypedIn_of_beginsInteger (c := '0') rfl ".00000000000000000000000000001e1".toList).2 _
      (by decide) hread
  have hnumeral : Numeral.ofText? "0.00000000000000000000000000001e1".toList =
      some ⟨false, ['0'], "00000000000000000000000000001".toList, 1⟩ := by
    decide +kernel
  have hnumber : Numeral.value ⟨false, ['0'], "00000000000000000000000000001".toList, 1⟩ =
      1 / 10 ^ 28 := by
    have hdigits : Text.decimalValue (Text.digits (['0'] ++
        "00000000000000000000000000001".toList)) = 1 := by decide
    have hplaces : (Text.digits "00000000000000000000000000001".toList).length = 29 := by decide
    rw [Numeral.value, Numeral.significand, hdigits, hplaces]
    norm_num [signed]
  obtain ⟨l, hl, hliteral⟩ := exists_numeral_toText ⟨false, 0, 27, by decide, by decide⟩
  rw [hvalue]
  refine ⟨_, l, hnumeral, hl, congrArg some hliteral.symm, hnumber, ?_, ?_⟩
  · rw [hnumber]
    exact ⟨⟨false, 1, 28, by decide, by decide⟩, by simp [Decimal.value, signed]⟩
  · rw [hliteral]
    simp [Decimal.value, signed]

end Value

end QueryTree
