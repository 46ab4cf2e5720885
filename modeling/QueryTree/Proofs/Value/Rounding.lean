import Mathlib.Tactic.FieldSimp
import Mathlib.Tactic.Positivity
import QueryTree.Proofs.Value.Numeral

/-!
# Decimals read from text

A decimal has room for a mantissa below two to the 96th and for 28 decimal places. A reader
that never runs out of room would keep every number. The reader of decimals rounds twice: the
digits in front of the exponent, and the result of moving the point to the left. Each time it
keeps the number exactly if a decimal has room for it, so a typed number is kept if and only if
a decimal has room both for the number and for the one in front of its exponent.
-/

namespace QueryTree

section Signed

variable {x y : ℚ}

theorem signed_inj (negative : Bool) : signed negative x = signed negative y ↔ x = y := by
  cases negative with
  | false => exact Iff.rfl
  | true => exact neg_inj

theorem signed_mul (negative : Bool) (x y : ℚ) :
    signed negative x * y = signed negative (x * y) := by
  cases negative with
  | false => rfl
  | true => exact neg_mul x y

end Signed

namespace Decimal

/-- The number that a magnitude stands for. -/
def Magnitude.value (m : Magnitude) : ℚ :=
  m.mantissa / 10 ^ m.scale

/-- Whether a decimal has room for a magnitude. -/
def Magnitude.InRange (m : Magnitude) : Prop :=
  m.mantissa < mantissaLimit ∧ m.scale ≤ maxScale

/-- Whether there is a decimal for a number. -/
def Holds (x : ℚ) : Prop :=
  ∃ d : Decimal, d.value = x

/-- Whether there is room for a number without a sign. -/
def Fits (x : ℚ) : Prop :=
  ∃ m : Magnitude, m.InRange ∧ m.value = x

namespace Magnitude

variable {m r : Magnitude}

theorem value_nonneg (m : Magnitude) : 0 ≤ m.value := by
  unfold value
  positivity

/-- Magnitudes are compared by multiplying across. -/
theorem value_eq_value : m.value = r.value ↔
    m.mantissa * 10 ^ r.scale = r.mantissa * 10 ^ m.scale := by
  rw [value, value, div_eq_div_iff (by positivity) (by positivity)]
  exact_mod_cast Iff.rfl

end Magnitude

theorem value_eq_signed (d : Decimal) :
    d.value = signed d.negative (Magnitude.value ⟨d.mantissa, d.scale⟩) := rfl

/-- There is a decimal for a number if there is room for its absolute value. -/
theorem holds_signed {x : ℚ} (hx : 0 ≤ x) (negative : Bool) :
    Holds (signed negative x) ↔ Fits x := by
  constructor
  · rintro ⟨d, hd⟩
    refine ⟨⟨d.mantissa, d.scale⟩, ⟨d.mantissa_lt, d.scale_le⟩, ?_⟩
    have hvalue := Magnitude.value_nonneg ⟨d.mantissa, d.scale⟩
    have habs := congrArg abs (d.value_eq_signed.symm.trans hd)
    have hsigned : ∀ (negative : Bool) {y : ℚ}, 0 ≤ y → |signed negative y| = y := by
      rintro (_ | _) y hy
      · exact abs_of_nonneg hy
      · exact (abs_neg y).trans (abs_of_nonneg hy)
    rwa [hsigned _ hvalue, hsigned _ hx] at habs
  · rintro ⟨m, ⟨hmantissa, hscale⟩, rfl⟩
    exact ⟨⟨negative, m.mantissa, m.scale, hmantissa, hscale⟩, rfl⟩

section Digits

/-- Reads all digits, also past the end of the room. -/
def readExactly (m : Magnitude) (point : Bool) : Text → Magnitude
  | [] => m
  | c :: t =>
    if c.isDigit then
      readExactly ⟨10 * m.mantissa + Text.digitValue c, if point then m.scale + 1 else m.scale⟩
        point t
    else if c == '.' then readExactly m true t
    else readExactly m point t

theorem readExactly_true (m : Magnitude) (t : Text) :
    readExactly m true t = ⟨10 ^ (Text.digits t).length * m.mantissa +
      Text.decimalValue (Text.digits t), m.scale + (Text.digits t).length⟩ := by
  induction t generalizing m with
  | nil => simp [readExactly, Text.digits]
  | cons c t ih =>
      cases hc : c.isDigit with
      | true =>
          rw [Text.digits_cons_of_isDigit hc, Text.decimalValue_cons, List.length_cons]
          simp only [readExactly, hc, if_true, ih, Magnitude.mk.injEq]
          constructor
          · ring
          · ring
      | false =>
          rw [Text.digits_cons_of_not_isDigit hc]
          simp only [readExactly, hc, Bool.false_eq_true, if_false, ih, ite_self]

/-- Without limits the digits on both sides of the point make up the mantissa. -/
theorem readExactly_false (m : Magnitude) (t : Text) :
    readExactly m false t =
      ⟨10 ^ (Text.digits (t.wholePart ++ t.placesPart)).length * m.mantissa +
        Text.decimalValue (Text.digits (t.wholePart ++ t.placesPart)),
        m.scale + (Text.digits t.placesPart).length⟩ := by
  induction t generalizing m with
  | nil => simp [readExactly, Text.digits, Text.wholePart, Text.placesPart]
  | cons c t ih =>
      by_cases hpoint : c = '.'
      · subst hpoint
        rw [Text.wholePart_point_cons, Text.placesPart_point_cons, List.nil_append,
          ← readExactly_true]
        rfl
      · rw [Text.wholePart_cons hpoint, Text.placesPart_cons hpoint, List.cons_append]
        cases hc : c.isDigit with
        | true =>
            rw [Text.digits_cons_of_isDigit hc, Text.decimalValue_cons, List.length_cons]
            simp only [readExactly, hc, if_true, Bool.false_eq_true, if_false, ih,
              Magnitude.mk.injEq, and_true]
            ring
        | false =>
            rw [Text.digits_cons_of_not_isDigit hc]
            simp only [readExactly, hc, Bool.false_eq_true, if_false, beq_iff_eq, hpoint, ih]

end Digits

section Room

variable {m r : Magnitude} {left : Text}

theorem roundOff_eq_some (h : roundOff m left = some r) :
    left.all isDigitOrGap = true ∧ (m.InRange → r.InRange) ∧
      (Text.decimalValue (Text.digits left) = 0 → r = m) := by
  have hhead : Text.decimalValue (Text.digits left) = 0 →
      (left.head?.map Text.digitValue).getD 0 = 0 := by
    intro hzero
    cases left with
    | nil => rfl
    | cons c left =>
        cases hc : c.isDigit with
        | true =>
            rw [Text.digits_cons_of_isDigit hc, Text.decimalValue_cons] at hzero
            have hpow : 0 < 10 ^ (Text.digits left).length := by positivity
            exact (Nat.mul_eq_zero.mp (Nat.add_eq_zero_iff.mp hzero).1).resolve_left hpow.ne'
        | false => simp [Text.digitValue, hc]
  unfold roundOff at h
  split at h
  · cases h
  · next hall =>
      refine ⟨by simpa using hall, ?_⟩
      split at h
      · obtain rfl := Option.some.inj h
        exact ⟨id, fun _ => rfl⟩
      · next hfive =>
          refine ⟨fun hm => ?_, fun hzero => absurd ((hhead hzero).trans_lt (by decide)) hfive⟩
          have hlt := hm.1
          split at h
          · next hroom =>
              obtain rfl := Option.some.inj h
              exact ⟨hroom, hm.2⟩
          · split at h
            · cases h
            · obtain rfl := Option.some.inj h
              refine ⟨?_, Nat.le_trans (Nat.sub_le _ _) hm.2⟩
              change (m.mantissa + 1 + 4) / 10 < mantissaLimit
              omega

/-- If a number with so many decimal places needs no more places than those that have been
read, the rest of its digits are zeros. -/
theorem left_eq_zero {k s mantissa scale left n : Nat} (hs : s ≤ scale) (hleft : left < 10 ^ n)
    (h : k * 10 ^ (scale + n) = (10 ^ n * mantissa + left) * 10 ^ s) : left = 0 := by
  obtain ⟨j, rfl⟩ := Nat.exists_eq_add_of_le hs
  have hcancel : k * 10 ^ j * 10 ^ n = 10 ^ n * mantissa + left := by
    have hpow : 0 < 10 ^ s := by positivity
    apply Nat.eq_of_mul_eq_mul_right hpow
    rw [← h]
    ring
  have hdvd : 10 ^ n ∣ left := by
    rw [← Nat.dvd_add_right (Nat.dvd_mul_right (10 ^ n) mantissa), ← hcancel]
    exact Nat.dvd_mul_left _ _
  exact Nat.eq_zero_of_dvd_of_lt hdvd hleft

/-- A number that needs more places than have been read has a mantissa that is as great as what
has been read with one digit more. -/
theorem le_of_scale_lt {k s mantissa scale left n : Nat} (hs : scale < s)
    (h : k * 10 ^ (scale + (n + 1)) = (10 ^ n * mantissa + left) * 10 ^ s) : mantissa ≤ k := by
  obtain ⟨j, rfl⟩ := Nat.exists_eq_add_of_lt hs
  have hcancel : 10 ^ n * k = (10 ^ n * mantissa + left) * 10 ^ j := by
    have hpow : 0 < 10 ^ (scale + 1) := by positivity
    apply Nat.eq_of_mul_eq_mul_right hpow
    calc 10 ^ n * k * 10 ^ (scale + 1) = k * 10 ^ (scale + (n + 1)) := by ring
      _ = (10 ^ n * mantissa + left) * 10 ^ (scale + j + 1) := h
      _ = (10 ^ n * mantissa + left) * 10 ^ j * 10 ^ (scale + 1) := by ring
  have hpow : 0 < 10 ^ n := by positivity
  apply Nat.le_of_mul_le_mul_left _ hpow
  calc 10 ^ n * mantissa ≤ 10 ^ n * mantissa + left := Nat.le_add_right _ _
    _ ≤ (10 ^ n * mantissa + left) * 10 ^ j := Nat.le_mul_of_pos_right _ (by positivity)
    _ = 10 ^ n * k := hcancel.symm

/-- What has been read is the number if only zeros are left. -/
theorem value_readExactly_of_zero (hzero : Text.decimalValue (Text.digits left) = 0) :
    m.value = (readExactly m true left).value := by
  rw [readExactly_true, Magnitude.value_eq_value, hzero]
  ring

/-- After the last decimal place that there is room for, a number that there is room for has
only zeros. -/
theorem left_eq_zero_of_scale (hm : maxScale ≤ m.scale)
    (h : Fits (readExactly m true left).value) :
    Text.decimalValue (Text.digits left) = 0 := by
  obtain ⟨k, hk, hvalue⟩ := h
  rw [readExactly_true, Magnitude.value_eq_value] at hvalue
  exact left_eq_zero (Nat.le_trans hk.2 hm) (Text.decimalValue_lt _) hvalue

/-- After the last digit that there is room for, too. -/
theorem left_eq_zero_of_mantissa {c : Char} (hc : c.isDigit = true)
    (hm : mantissaLimit ≤ 10 * m.mantissa + Text.digitValue c)
    (h : Fits (readExactly m true (c :: left)).value) :
    Text.decimalValue (Text.digits (c :: left)) = 0 := by
  obtain ⟨k, hk, hvalue⟩ := h
  rw [readExactly_true, Magnitude.value_eq_value] at hvalue
  rcases Nat.lt_or_ge m.scale k.scale with hs | hs
  · rw [Text.digits_cons_of_isDigit hc, List.length_cons, Text.decimalValue_cons] at hvalue
    have hle : 10 * m.mantissa + Text.digitValue c ≤ k.mantissa := by
      apply le_of_scale_lt hs (hvalue.trans _)
      · exact Text.decimalValue (Text.digits left)
      · ring
    exact absurd hk.1 (Nat.not_lt.mpr (Nat.le_trans hm hle))
  · exact left_eq_zero hs (Text.decimalValue_lt _) hvalue

/-- Whether the reader may go on after a magnitude: there is room for one more place. -/
def Magnitude.Open (m : Magnitude) (point : Bool) : Prop :=
  m.mantissa < mantissaLimit ∧ if point then m.scale < maxScale else m.scale = 0

theorem Magnitude.Open.inRange {point : Bool} (h : m.Open point) : m.InRange := by
  refine ⟨h.1, ?_⟩
  have hscale := h.2
  split at hscale
  · exact Nat.le_of_lt hscale
  · rw [hscale]
    exact Nat.zero_le _

theorem digits_dropWhile (t : Text) : Text.digits (t.dropWhile (· == '_')) = Text.digits t := by
  induction t with
  | nil => rfl
  | cons c t ih =>
      by_cases hc : c = '_'
      · subst hc
        exact ih
      · rw [List.dropWhile_cons_of_neg (by simpa using hc)]

/-- What the reader of digits answers has room in a decimal, and it is the number that is
written there if a decimal has room for this number. -/
theorem readDigits_keeps (m : Magnitude) (point digit : Bool) (t : Text) :
    m.Open point → readDigits m point digit t = some r →
      r.InRange ∧
        (Fits (readExactly m point t).value → r.value = (readExactly m point t).value) := by
  fun_induction readDigits m point digit t with
  | case1 m point =>
      rintro hm ⟨⟩
      exact ⟨hm.inRange, fun _ => rfl⟩
  | case2 => nofun
  | case3 m digit c rest hc grown hfull =>
      -- no room for the digit, and the point has been read
      intro hm h
      obtain ⟨_, hrange, hkept⟩ := roundOff_eq_some h
      refine ⟨hrange hm.inRange, fun hroom => ?_⟩
      have hzero := left_eq_zero_of_mantissa hc hfull hroom
      rw [hkept hzero]
      exact value_readExactly_of_zero hzero
  | case4 => nofun
  | case5 m point digit c rest hc grown hroom hlast =>
      -- the last decimal place that there is room for
      intro hm h
      obtain ⟨rfl, hscale⟩ := Bool.and_eq_true_iff.mp hlast
      have hopen : m.scale < maxScale := hm.2
      have hexact : readExactly m true (c :: rest) = readExactly grown true rest := by
        simp only [readExactly, hc, if_true, grown]
      have hgrown : grown.InRange := ⟨Nat.not_le.mp hroom, hopen⟩
      obtain ⟨_, hrange, hkept⟩ := roundOff_eq_some h
      rw [hexact]
      refine ⟨hrange hgrown, fun hroom => ?_⟩
      have hzero := left_eq_zero_of_scale (of_decide_eq_true hscale) hroom
      have hleft : Text.decimalValue (Text.digits
          (if wideMantissa ≤ m.mantissa then rest.dropWhile (· == '_') else rest)) = 0 := by
        split
        · rw [digits_dropWhile, hzero]
        · exact hzero
      rw [hkept hleft]
      exact value_readExactly_of_zero hzero
  | case6 m point digit c rest hc grown hroom hmore ih =>
      intro hm h
      have hexact : readExactly m point (c :: rest) = readExactly grown point rest := by
        simp only [readExactly, hc, if_true, grown]
      rw [hexact]
      refine ih ⟨Nat.not_le.mp hroom, ?_⟩ h
      cases point with
      | true => simpa [grown] using hmore
      | false => exact hm.2
  | case7 m point digit c rest hc hpoint ih =>
      intro hm h
      obtain ⟨hcpoint, hbefore⟩ := Bool.and_eq_true_iff.mp hpoint
      obtain rfl : point = false := by simpa using hbefore
      have hexact : readExactly m false (c :: rest) = readExactly m true rest := by
        simp only [readExactly, hc, hcpoint, if_true, Bool.false_eq_true, if_false]
      have hscale : m.scale = 0 := hm.2
      rw [hexact]
      refine ih ⟨hm.1, ?_⟩ h
      rw [if_pos rfl, hscale]
      decide
  | case8 m point digit c rest hc hpoint hgap ih =>
      intro hm h
      have hc' : c ≠ '.' := by
        rintro rfl
        exact absurd (Bool.and_eq_true_iff.mp hgap).1 (by decide)
      have hexact : readExactly m point (c :: rest) = readExactly m point rest := by
        simp only [readExactly, hc, beq_iff_eq, hc', Bool.false_eq_true, if_false]
      rw [hexact]
      exact ih hm h
  | case9 => nofun

/-- Whether a text has nothing but digits, underscores and a point that has not been read
before. -/
def IsUnsigned (point : Bool) (t : Text) : Prop :=
  (if point then t else t.wholePart ++ t.placesPart).all isDigitOrGap = true

theorem IsUnsigned.cons {point : Bool} {c : Char} (hc : isDigitOrGap c = true) {t : Text}
    (h : IsUnsigned point t) : IsUnsigned point (c :: t) := by
  cases point with
  | true => exact Bool.and_eq_true_iff.mpr ⟨hc, h⟩
  | false =>
      have hpoint : c ≠ '.' := by
        rintro rfl
        cases hc
      change (Text.wholePart (c :: t) ++ Text.placesPart (c :: t)).all isDigitOrGap = true
      rw [Text.wholePart_cons hpoint, Text.placesPart_cons hpoint, List.cons_append]
      exact Bool.and_eq_true_iff.mpr ⟨hc, h⟩

/-- What is read as digits has nothing else, and it has at least one digit. -/
theorem readDigits_shape (m : Magnitude) (point digit : Bool) (t : Text) :
    readDigits m point digit t = some r →
      IsUnsigned point t ∧ (digit || t.any Char.isDigit) = true := by
  have hgap : ∀ {c : Char}, c.isDigit = true → isDigitOrGap c = true := by
    intro c hc
    rw [isDigitOrGap, hc, Bool.true_or]
  have hany : ∀ {c : Char} (digit : Bool) (t : Text), c.isDigit = true →
      (digit || (c :: t).any Char.isDigit) = true := by
    intro c digit t hc
    rw [List.any_cons, hc, Bool.true_or, Bool.or_true]
  fun_induction readDigits m point digit t with
  | case1 m point =>
      intro _
      cases point <;> exact ⟨rfl, rfl⟩
  | case2 =>
      intro h
      cases h
  | case3 m digit c rest hc grown hfull =>
      intro h
      exact ⟨(roundOff_eq_some h).1, hany digit rest hc⟩
  | case4 =>
      intro h
      cases h
  | case5 m point digit c rest hc grown hroom hlast =>
      intro h
      obtain ⟨rfl, _⟩ := Bool.and_eq_true_iff.mp hlast
      have hall := (roundOff_eq_some h).1
      have hrest : IsUnsigned true rest := by
        split at hall
        · change rest.all isDigitOrGap = true
          rw [← List.takeWhile_append_dropWhile (p := (· == '_')) (l := rest), List.all_append,
            hall, Bool.and_true, List.all_eq_true]
          intro c hc
          rw [isDigitOrGap, List.mem_takeWhile_imp hc, Bool.or_true]
        · exact hall
      exact ⟨hrest.cons (hgap hc), hany digit rest hc⟩
  | case6 m point digit c rest hc grown hroom hmore ih =>
      intro h
      exact ⟨(ih h).1.cons (hgap hc), hany digit rest hc⟩
  | case7 m point digit c rest hc hpoint ih =>
      intro h
      obtain ⟨hcpoint, hbefore⟩ := Bool.and_eq_true_iff.mp hpoint
      obtain rfl : point = false := by simpa using hbefore
      obtain rfl : c = '.' := beq_iff_eq.mp hcpoint
      exact ih h
  | case8 m point digit c rest hc hpoint hunderscore ih =>
      intro h
      obtain ⟨hc, rfl⟩ := Bool.and_eq_true_iff.mp hunderscore
      exact ⟨(ih h).1.cons (by rw [isDigitOrGap, hc, Bool.or_true]), rfl⟩
  | case9 =>
      intro h
      cases h

end Room

section Exponent

variable {m r : Magnitude} {places : Nat}

theorem shiftLeft_keeps (hm : m.InRange) (h : shiftLeft m places = some r) :
    (Fits (m.value / 10 ^ places) → r.value = m.value / 10 ^ places) ∧
      (r.InRange → ∀ x, r.value = x / 10 ^ places → Fits x) := by
  have hmoved : m.value / 10 ^ places =
      Magnitude.value ⟨m.mantissa, m.scale + places⟩ := by
    rw [Magnitude.value, Magnitude.value, div_div, pow_add]
  unfold shiftLeft at h
  split at h
  · cases h
  · next hplaces =>
      split at h
      · next hscale =>
          obtain rfl := Option.some.inj h
          obtain ⟨j, hj⟩ := Nat.exists_eq_add_of_lt hscale
          have hunit : m.scale + places - maxScale = j + 1 := by omega
          rw [hunit, hmoved]
          constructor
          · rintro ⟨k, hk, hvalue⟩
            rw [Magnitude.value_eq_value] at hvalue
            -- the places that are dropped are zeros
            obtain ⟨i, hi⟩ := Nat.exists_eq_add_of_le hk.2
            have hmantissa : m.mantissa = 10 ^ (j + 1) * (k.mantissa * 10 ^ i) := by
              have hpow : 0 < 10 ^ k.scale := by positivity
              apply Nat.eq_of_mul_eq_mul_right hpow
              calc m.mantissa * 10 ^ k.scale = k.mantissa * 10 ^ (m.scale + places) := hvalue.symm
                _ = k.mantissa * 10 ^ (k.scale + i + j + 1) := by rw [hj, hi]
                _ = 10 ^ (j + 1) * (k.mantissa * 10 ^ i) * 10 ^ k.scale := by ring
            have hpow : 0 < 10 ^ (j + 1) := by positivity
            have hround : ∀ q,
                (2 * (10 ^ (j + 1) * q) + 10 ^ (j + 1)) / (2 * 10 ^ (j + 1)) = q := by
              intro q
              have hsum : 2 * (10 ^ (j + 1) * q) + 10 ^ (j + 1) =
                  10 ^ (j + 1) + 2 * 10 ^ (j + 1) * q := by ring
              rw [hsum, Nat.add_mul_div_left _ _ (by positivity), Nat.div_eq_of_lt (by omega),
                Nat.zero_add]
            rw [Magnitude.value_eq_value]
            change (2 * m.mantissa + 10 ^ (j + 1)) / (2 * 10 ^ (j + 1)) * 10 ^ (m.scale + places) =
              m.mantissa * 10 ^ maxScale
            rw [hmantissa, hround, hj]
            ring
          · intro hr x hx
            -- the result has all places there are, so the number has some to spare
            obtain ⟨i, hi⟩ := Nat.exists_eq_add_of_le (Nat.not_lt.mp hplaces)
            refine ⟨⟨_, i⟩, ⟨hr.1, Nat.le.intro ((Nat.add_comm _ _).trans hi.symm)⟩, ?_⟩
            rw [eq_div_iff (by positivity)] at hx
            rw [← hx, Magnitude.value, Magnitude.value, hi, pow_add]
            field_simp
      · next hscale =>
          obtain rfl := Option.some.inj h
          rw [hmoved]
          refine ⟨fun _ => rfl, fun _ x hx => ?_⟩
          rw [← hmoved, div_left_inj' (by positivity)] at hx
          exact ⟨m, hm, hx⟩

theorem shiftRight_keeps (h : shiftRight m places = some r) :
    r.value = m.value * 10 ^ places := by
  unfold shiftRight at h
  split at h
  · next hplaces =>
      obtain rfl := Option.some.inj h
      obtain ⟨i, hi⟩ := Nat.exists_eq_add_of_le hplaces
      rw [Magnitude.value, Magnitude.value, hi, Nat.add_sub_cancel_left, pow_add]
      field_simp
  · next hplaces =>
      split at h
      · cases h
      · obtain rfl := Option.some.inj h
        obtain ⟨i, hi⟩ := Nat.exists_eq_add_of_lt (Nat.not_le.mp hplaces)
        have hmore : places - m.scale = i + 1 := by omega
        rw [Magnitude.value, Magnitude.value, hmore, hi, Nat.pow_eq]
        push_cast
        field_simp
        ring

end Exponent

end Decimal

end QueryTree
