import Mathlib.Algebra.Order.Ring.Nat
import Mathlib.Data.List.Basic
import Mathlib.Data.List.Induction
import Mathlib.Tactic.Ring
import QueryTree.Proofs.Value.Bare

/-!
# Digits of numbers

A run of digits denotes a number. Of the runs that denote it just one has no zero in front of
other digits, and this is the one that the number is written as.
-/

namespace QueryTree.Text

section Value

theorem digitValue_of_isDigit {c : Char} (h : c.isDigit = true) :
    digitValue c = c.toNat - '0'.toNat :=
  if_pos h

theorem toNat_of_isDigit {c : Char} (h : c.isDigit = true) : 48 ≤ c.toNat ∧ c.toNat ≤ 57 := by
  simpa [Char.isDigit, UInt32.le_iff_toNat_le] using h

theorem digitValue_le (c : Char) : digitValue c ≤ 9 := by
  cases h : c.isDigit with
  | false => simp [digitValue, h]
  | true =>
      have hc := toNat_of_isDigit h
      have hzero : '0'.toNat = 48 := rfl
      rw [digitValue_of_isDigit h]
      omega

theorem digitValue_eq_zero {c : Char} (h : c.isDigit = true) : digitValue c = 0 ↔ c = '0' := by
  constructor
  · intro hvalue
    have hc := toNat_of_isDigit h
    have hzero : '0'.toNat = 48 := rfl
    rw [digitValue_of_isDigit h] at hvalue
    exact Char.toNat_inj.mp (by omega)
  · rintro rfl
    rfl

/-- A digit is written as its value. -/
theorem digitChar_digitValue {c : Char} (h : c.isDigit = true) :
    Nat.digitChar (digitValue c) = c := by
  have hc := toNat_of_isDigit h
  have hzero : '0'.toNat = 48 := rfl
  have hvalue := digitValue_of_isDigit h
  apply Char.toNat_inj.mp
  rw [Nat.toNat_digitChar_of_lt_ten (Nat.lt_succ_of_le (digitValue_le c))]
  omega

@[simp] theorem decimalValue_nil : decimalValue [] = 0 := rfl

theorem decimalValue_concat (s : Text) (c : Char) :
    decimalValue (s ++ [c]) = 10 * decimalValue s + digitValue c :=
  List.foldl_concat _ _ _ _

theorem decimalValue_append (s t : Text) :
    decimalValue (s ++ t) = 10 ^ t.length * decimalValue s + decimalValue t := by
  induction t using List.reverseRecOn with
  | nil => simp
  | append_singleton t c ih =>
      rw [← List.append_assoc, decimalValue_concat, decimalValue_concat, ih, List.length_append,
        List.length_singleton, pow_succ]
      ring

theorem decimalValue_cons (c : Char) (t : Text) :
    decimalValue (c :: t) = 10 ^ t.length * digitValue c + decimalValue t := by
  have hc : decimalValue [c] = digitValue c := by simp [decimalValue]
  rw [← List.singleton_append, decimalValue_append, hc]

theorem decimalValue_lt (t : Text) : decimalValue t < 10 ^ t.length := by
  induction t using List.reverseRecOn with
  | nil => simp
  | append_singleton t c ih =>
      have hc := digitValue_le c
      rw [decimalValue_concat, List.length_append, List.length_singleton, pow_succ]
      omega

@[simp] theorem decimalValue_ofNat (n : Nat) : decimalValue (ofNat n) = n := by
  have hdigits : ∀ t : Text, (∀ c ∈ t, c.isDigit = true) →
      decimalValue t = Nat.ofDigitChars 10 t 0 := by
    intro t ht
    rw [Nat.ofDigitChars_eq_foldl, decimalValue]
    exact List.foldl_ext _ _ _ fun n c hc => by rw [digitValue_of_isDigit (ht c hc)]
  rw [hdigits _ fun c hc => isDigit_of_mem_ofNat hc]
  exact Nat.ofDigitChars_ten_toDigits

theorem decimalValue_ofNatPadded (width n : Nat) : decimalValue (ofNatPadded width n) = n := by
  have hzeros : ∀ k : Nat, decimalValue (List.replicate k '0') = 0 := by
    intro k
    induction k with
    | zero => rfl
    | succ k ih =>
        have hzero : digitValue '0' = 0 := rfl
        rw [List.replicate_succ, decimalValue_cons, hzero, Nat.mul_zero, ih]
  rw [ofNatPadded, decimalValue_append, hzeros, Nat.mul_zero, Nat.zero_add, decimalValue_ofNat]

theorem digits?_eq_some {t : Text} {n : Nat} :
    digits? t = some n ↔ t ≠ [] ∧ (∀ c ∈ t, c.isDigit = true) ∧ decimalValue t = n := by
  simp [digits?, and_assoc]

@[simp] theorem digits?_ofNat (n : Nat) : digits? (ofNat n) = some n :=
  digits?_eq_some.mpr
    ⟨ofNat_ne_nil n, fun _ hc => isDigit_of_mem_ofNat hc, decimalValue_ofNat n⟩

/-- What begins with a digit has no sign. -/
theorem splitSign_of_isDigit {c : Char} (h : c.isDigit = true) (t : Text) :
    splitSign (c :: t) = (false, c :: t) := by
  unfold splitSign
  split
  · rename_i _ hcover
    rw [(List.cons.inj hcover).1] at h
    cases h
  · rename_i _ hcover
    rw [(List.cons.inj hcover).1] at h
    cases h
  · rfl

theorem splitSign_ofNat (n : Nat) : splitSign (ofNat n) = (false, ofNat n) := by
  obtain ⟨c, t, ht⟩ := List.exists_cons_of_ne_nil (ofNat_ne_nil n)
  have hc : c.isDigit = true := isDigit_of_mem_ofNat (n := n) (by rw [ht]; exact List.mem_cons_self)
  rw [ht, splitSign_of_isDigit hc]

end Value

section Canonical

/-- Digits without a zero in front of others. -/
structure CanonicalDigits (t : Text) : Prop where
  ne_nil : t ≠ []
  isDigit : ∀ c ∈ t, c.isDigit = true
  lead : t.head? = some '0' → t = ['0']

theorem ofNat_of_lt {n : Nat} (h : n < 10) : ofNat n = [Nat.digitChar n] := by
  rw [ofNat, Nat.toDigits_eq_if (by decide), if_pos h]

theorem ofNat_of_le {n : Nat} (h : 10 ≤ n) :
    ofNat n = ofNat (n / 10) ++ [Nat.digitChar (n % 10)] := by
  rw [ofNat, Nat.toDigits_eq_if (by decide), if_neg (Nat.not_lt.mpr h), ofNat]

/-- The number of digits that have no zero in front is written as these digits. -/
theorem CanonicalDigits.ofNat_decimalValue {t : Text} (h : t.CanonicalDigits) :
    ofNat (decimalValue t) = t := by
  induction t using List.reverseRecOn with
  | nil => exact absurd rfl h.ne_nil
  | append_singleton s c ih =>
      have hc : c.isDigit = true := h.isDigit c (by simp)
      have hlt : digitValue c < 10 := Nat.lt_succ_of_le (digitValue_le c)
      rw [decimalValue_concat]
      cases s with
      | nil =>
          rw [decimalValue_nil, Nat.mul_zero, Nat.zero_add, ofNat_of_lt hlt,
            digitChar_digitValue hc, List.nil_append]
      | cons d s =>
          have hd : d ≠ '0' := fun hd => by
            have hone := h.lead (by rw [hd]; rfl)
            simp at hone
          have hs : CanonicalDigits (d :: s) :=
            ⟨List.cons_ne_nil _ _, fun x hx => h.isDigit x (List.mem_append_left _ hx),
              fun hhead => absurd (Option.some.inj hhead) hd⟩
          -- the first digit makes the number in front of the last digit positive
          have hpos : 0 < decimalValue (d :: s) := by
            have hvalue : digitValue d ≠ 0 := fun hzero =>
              hd ((digitValue_eq_zero (hs.isDigit d List.mem_cons_self)).mp hzero)
            rw [decimalValue_cons]
            exact Nat.add_pos_left (Nat.mul_pos (Nat.pow_pos (by decide))
              (Nat.pos_of_ne_zero hvalue)) _
          have hdiv : (10 * decimalValue (d :: s) + digitValue c) / 10 = decimalValue (d :: s) := by
            omega
          have hmod : (10 * decimalValue (d :: s) + digitValue c) % 10 = digitValue c := by omega
          rw [ofNat_of_le (by omega), hdiv, hmod, ih hs, digitChar_digitValue hc]

theorem canonicalDigits_ofNat (n : Nat) : (ofNat n).CanonicalDigits := by
  refine ⟨ofNat_ne_nil n, fun _ hc => isDigit_of_mem_ofNat hc, ?_⟩
  induction n using Nat.strongRecOn with
  | ind n ih =>
      rcases Nat.lt_or_ge n 10 with hn | hn
      · rw [ofNat_of_lt hn]
        exact fun hhead => by rw [Option.some.inj hhead]
      · intro hhead
        rw [ofNat_of_le hn, List.head?_append_of_ne_nil _ (ofNat_ne_nil _)] at hhead
        have hzero := congrArg decimalValue
          (ih (n / 10) (Nat.div_lt_self (by omega) (by decide)) hhead)
        rw [decimalValue_ofNat] at hzero
        have hvalue : decimalValue ['0'] = 0 := rfl
        omega

/-- Whether a text is the canonical spelling of an integer: a minus exactly if it is negative,
and the digits of its absolute value without a zero in front of others. -/
def SpellsInteger (t : Text) (n : Int) : Prop :=
  ∃ digits : Text, digits.CanonicalDigits ∧ decimalValue digits = n.natAbs ∧
    t = if n < 0 then '-' :: digits else digits

/-- The canonical spelling is the written form of an integer, and no other text is. -/
theorem spellsInteger_iff {t : Text} {n : Int} :
    t.SpellsInteger n ↔ t = Value.integerText n := by
  have htext : Value.integerText n =
      if n < 0 then '-' :: ofNat n.natAbs else ofNat n.natAbs := by
    rw [Value.integerText]
    split <;> rfl
  rw [htext]
  constructor
  · rintro ⟨digits, hdigits, hvalue, rfl⟩
    rw [← hvalue, hdigits.ofNat_decimalValue]
  · rintro rfl
    exact ⟨ofNat n.natAbs, canonicalDigits_ofNat _, decimalValue_ofNat _, rfl⟩

end Canonical

end QueryTree.Text
