import QueryTree.Proofs.LetterCase.Text
import QueryTree.Proofs.Value.Digits
import QueryTree.Value.Integer

/-!
# Integers written and read

The literal of an integer is its canonical decimal spelling, and typing that literal gives the
value back. For this the reader has to refuse an integer past 64 bits with a sign before it
reads the same digits as a decimal, and it does. Of the written forms of decimals it is used only
that a whole number is written as its digits and read back from them.
-/

namespace QueryTree

namespace Text

/-- Whether a character may begin the spelling of an integer. -/
def beginsInteger (c : Char) : Bool :=
  c.isDigit || c == '-'

theorem caseBlind_beginsInteger : CaseBlind beginsInteger := caseBlind_of_all (by decide)

/-- Words that are the same up to case begin with characters of the same class. -/
theorem CaseBlind.eq_of_sameWord {p : Char → Bool} (hp : CaseBlind p) {c d : Char} {s t : Text}
    (h : sameWord (c :: s) (d :: t) = true) : p c = p d := by
  rw [sameWord_iff, upper_cons, upper_cons, List.cons.injEq] at h
  rw [← hp c, h.1, hp d]

theorem sameWord_eq_false {c d : Char} {s t : Text} (hc : beginsInteger c = true)
    (hd : beginsInteger d = false) : sameWord (c :: s) (d :: t) = false := by
  apply Bool.eq_false_iff.mpr
  intro h
  have hsame := caseBlind_beginsInteger.eq_of_sameWord h
  rw [hc, hd] at hsame
  cases hsame

end Text

namespace Decimal

/-- Digits alone are read as the number that they denote, if it fits. -/
theorem readDigits_of_isDigit {t : Text} (ht : ∀ c ∈ t, c.isDigit = true) {m : Nat}
    {digit : Bool} (hdigit : t ≠ [] ∨ digit = true)
    (hlt : 10 ^ t.length * m + Text.decimalValue t < mantissaLimit) :
    readDigits ⟨m, 0⟩ false digit t =
      some ⟨10 ^ t.length * m + Text.decimalValue t, 0⟩ := by
  induction t generalizing m digit with
  | nil =>
      obtain rfl := hdigit.resolve_left (fun h => h rfl)
      simp [readDigits]
  | cons c t ih =>
      obtain ⟨hc, ht⟩ := List.forall_mem_cons.mp ht
      have hvalue : 10 ^ (c :: t).length * m + Text.decimalValue (c :: t) =
          10 ^ t.length * (10 * m + Text.digitValue c) + Text.decimalValue t := by
        rw [Text.decimalValue_cons, List.length_cons, pow_succ]
        ring
      rw [hvalue] at hlt ⊢
      have hgrown : 10 * m + Text.digitValue c < mantissaLimit :=
        Nat.lt_of_le_of_lt (Nat.le_trans (Nat.le_mul_of_pos_left _ (Nat.pow_pos (by decide)))
          (Nat.le_add_right _ _)) hlt
      rw [readDigits, if_pos hc, if_neg (Nat.not_le.mpr hgrown)]
      exact ih ht (Or.inr rfl) hlt

theorem readPlain_ofNat {n : Nat} (h : n < mantissaLimit) :
    readPlain (Text.ofNat n) = some (false, ⟨n, 0⟩) := by
  have hvalue : 10 ^ (Text.ofNat n).length * 0 + Text.decimalValue (Text.ofNat n) = n := by
    rw [Nat.mul_zero, Nat.zero_add, Text.decimalValue_ofNat]
  have hread : readDigits ⟨0, 0⟩ false false (Text.ofNat n) =
      some ⟨10 ^ (Text.ofNat n).length * 0 + Text.decimalValue (Text.ofNat n), 0⟩ :=
    readDigits_of_isDigit (fun c hc => Text.isDigit_of_mem_ofNat hc)
      (Or.inl (Text.ofNat_ne_nil n)) (by rwa [hvalue])
  rw [hvalue] at hread
  rw [readPlain, Text.splitSign_ofNat]
  simp [hread]

/-- An unsigned number is read back from its digits. -/
theorem ofText?_ofNat (u : UInt64) : ofText? (Text.ofNat u.toNat) = some (ofUInt64 u) := by
  have hfits : u.toNat < mantissaLimit := (ofUInt64 u).mantissa_lt
  rw [ofText?, readPlain_ofNat hfits, Option.some_or, Option.bind_some]
  exact dif_pos ⟨hfits, Nat.zero_le _⟩

/-- Without decimal places a decimal is written as the digits of its mantissa. -/
theorem toText_ofUInt64 (u : UInt64) : (ofUInt64 u).toText = Text.ofNat u.toNat := by
  have hlength : 1 ≤ (Text.ofNat u.toNat).length :=
    List.length_pos_iff.mpr (Text.ofNat_ne_nil _)
  have hpadded : Text.ofNatPadded 1 u.toNat = Text.ofNat u.toNat := by
    rw [Text.ofNatPadded, Nat.sub_eq_zero_of_le hlength, List.replicate_zero, List.nil_append]
  simp [toText, ofUInt64, hpadded]

end Decimal

namespace Value

section Typed

/-- The range of the integers of 64 bits with a sign. -/
def FitsInt64 (n : Int) : Prop :=
  Int64.minValue.toInt ≤ n ∧ n ≤ Int64.maxValue.toInt

theorem fitsInt64_toInt (k : Int64) : FitsInt64 k.toInt :=
  ⟨k.minValue_le_toInt, k.toInt_le⟩

theorem integerText_of_nonneg {n : Int} (h : 0 ≤ n) : integerText n = Text.ofNat n.natAbs := by
  rw [integerText, if_neg (Int.not_lt.mpr h), List.nil_append]

theorem integerText_of_neg {n : Int} (h : n < 0) :
    integerText n = '-' :: Text.ofNat n.natAbs := by
  rw [integerText, if_pos h, List.singleton_append]

/-- The spelling of an integer begins with a digit or a minus. -/
theorem exists_integerText_eq_cons (n : Int) :
    ∃ c t, integerText n = c :: t ∧ Text.beginsInteger c = true := by
  rcases Int.lt_or_le n 0 with hn | hn
  · exact ⟨'-', _, integerText_of_neg hn, rfl⟩
  · obtain ⟨c, t, ht⟩ := List.exists_cons_of_ne_nil (Text.ofNat_ne_nil n.natAbs)
    refine ⟨c, t, (integerText_of_nonneg hn).trans ht, ?_⟩
    have hc : c.isDigit = true :=
      Text.isDigit_of_mem_ofNat (n := n.natAbs) (by rw [ht]; exact List.mem_cons_self)
    rw [Text.beginsInteger, hc, Bool.true_or]

/-- The spelling of an integer is read as this integer if it fits, and refused otherwise. -/
theorem integer?_integerText (n : Int) :
    (FitsInt64 n → integer? (integerText n) = some (Int64.ofInt n)) ∧
      (¬FitsInt64 n → integer? (integerText n) = none) := by
  have hread : integer? (integerText n) =
      if Int64.minValue.toInt ≤ n ∧ n ≤ Int64.maxValue.toInt then some (Int64.ofInt n)
      else none := by
    rcases Int.lt_or_le n 0 with hn | hn
    · have habs : -(n.natAbs : Int) = n := by omega
      have hsplit : Text.splitSign (integerText n) = (true, Text.ofNat n.natAbs) := by
        rw [integerText_of_neg hn]
        rfl
      simp only [integer?, hsplit, Text.digits?_ofNat, if_true, habs]
    · have habs : (n.natAbs : Int) = n := by omega
      have hsplit : Text.splitSign (integerText n) = (false, Text.ofNat n.natAbs) := by
        rw [integerText_of_nonneg hn, Text.splitSign_ofNat]
      simp only [integer?, hsplit, Text.digits?_ofNat, Bool.false_eq_true, if_false, habs]
  rw [hread]
  exact ⟨fun h => if_pos h, fun h => if_neg h⟩

/-- Whether a whole number is written as its digits and is read back from them. -/
structure Forms.WholeNumbers (forms : Forms) : Prop where
  write : ∀ n : UInt64, forms.writeDecimal (Decimal.ofUInt64 n) = Text.ofNat n.toNat
  read : ∀ n : UInt64, forms.readDecimal (Text.ofNat n.toNat) = some (Decimal.ofUInt64 n)

theorem Forms.standard_wholeNumbers : Forms.standard.WholeNumbers where
  write := Decimal.toText_ofUInt64
  read := Decimal.ofText?_ofNat

variable {forms : Forms}

theorem ofTypedIn_of_beginsInteger {c : Char} (h : Text.beginsInteger c = true) (t : Text) :
    (∀ k, integer? (c :: t) = some k → ofTypedIn forms (c :: t) false = integer k) ∧
      ∀ d, integer? (c :: t) = none → forms.readDecimal (c :: t) = some d →
        ofTypedIn forms (c :: t) false = decimal d := by
  have hnull : Text.sameWord (c :: t) "null".toList = false := Text.sameWord_eq_false h rfl
  have htrue : Text.sameWord (c :: t) "true".toList = false := Text.sameWord_eq_false h rfl
  have hfalse : Text.sameWord (c :: t) "false".toList = false := Text.sameWord_eq_false h rfl
  constructor
  · intro k hk
    simp only [ofTypedIn, hnull, htrue, hfalse, hk, Bool.false_eq_true, if_false]
  · intro d hinteger hd
    simp only [ofTypedIn, hnull, htrue, hfalse, hinteger, hd, Bool.false_eq_true, if_false]

theorem ofTypedIn_integerText (k : Int64) :
    ofTypedIn forms (integerText k.toInt) false = integer k := by
  obtain ⟨c, t, ht, hc⟩ := exists_integerText_eq_cons k.toInt
  have hread := (integer?_integerText k.toInt).1 (fitsInt64_toInt k)
  rw [Int64.ofInt_toInt] at hread
  rw [ht] at hread ⊢
  exact (ofTypedIn_of_beginsInteger hc t).1 k hread

theorem ofTypedIn_ofNat (hforms : forms.WholeNumbers) {u : UInt64} (h : 2 ^ 63 ≤ u.toNat) :
    ofTypedIn forms (Text.ofNat u.toNat) false = decimal (Decimal.ofUInt64 u) := by
  have htext : integerText u.toNat = Text.ofNat u.toNat := integerText_of_nonneg (by omega)
  have hfits : ¬FitsInt64 u.toNat := by
    rintro ⟨_, hle⟩
    rw [Int64.toInt_maxValue] at hle
    omega
  have hinteger := (integer?_integerText u.toNat).2 hfits
  have hdecimal := hforms.read u
  obtain ⟨c, t, ht, hc⟩ := exists_integerText_eq_cons u.toNat
  rw [← htext] at hdecimal ⊢
  rw [ht] at hinteger hdecimal ⊢
  exact (ofTypedIn_of_beginsInteger hc t).2 _ hinteger hdecimal

end Typed

section Sizes

/-- An integer of any type becomes an integer of the same number, or else it is unsigned, past
the integers, and becomes a decimal. -/
theorem ofInteger_cases (τ : IntegerType) (n : τ.Carrier) :
    (∃ k : Int64, ofInteger τ n = integer k ∧ k.toInt = τ.toInt n) ∨
      ∃ u : UInt64, ofInteger τ n = decimal (Decimal.ofUInt64 u) ∧ τ.toInt n = u.toNat ∧
        2 ^ 63 ≤ u.toNat := by
  have hwiden : ∀ u : UInt64, u.toNat < 2 ^ 63 → u.toInt64.toInt = u.toNat := by
    intro u hu
    rw [← UInt64.ofNat_toNat (x := u), UInt64.toInt64_ofNat', UInt64.ofNat_toNat,
      Int64.toInt_ofNat_of_lt hu]
  have hwide : ∀ u : UInt64, (∃ k : Int64, ofUInt64 u = integer k ∧ k.toInt = u.toNat) ∨
      ∃ v : UInt64, ofUInt64 u = decimal (Decimal.ofUInt64 v) ∧ (u.toNat : Int) = v.toNat ∧
        2 ^ 63 ≤ v.toNat := by
    intro u
    by_cases hu : u.toNat < 2 ^ 63
    · exact Or.inl ⟨_, if_pos hu, Int64.toInt_ofNat_of_lt hu⟩
    · exact Or.inr ⟨u, if_neg hu, rfl, Nat.not_lt.mp hu⟩
  cases τ with
  | int8 => exact Or.inl ⟨_, rfl, Int8.toInt_toInt64 n⟩
  | int16 => exact Or.inl ⟨_, rfl, Int16.toInt_toInt64 n⟩
  | int32 => exact Or.inl ⟨_, rfl, Int32.toInt_toInt64 n⟩
  | int64 => exact Or.inl ⟨_, rfl, rfl⟩
  | isize => exact Or.inl ⟨_, rfl, rfl⟩
  | uint8 =>
      have hn := UInt8.toNat_lt n
      refine Or.inl ⟨_, rfl, ?_⟩
      rw [hwiden _ (by rw [UInt8.toNat_toUInt64]; omega), UInt8.toNat_toUInt64]
      rfl
  | uint16 =>
      have hn := UInt16.toNat_lt n
      refine Or.inl ⟨_, rfl, ?_⟩
      rw [hwiden _ (by rw [UInt16.toNat_toUInt64]; omega), UInt16.toNat_toUInt64]
      rfl
  | uint32 =>
      have hn := UInt32.toNat_lt n
      refine Or.inl ⟨_, rfl, ?_⟩
      rw [hwiden _ (by rw [UInt32.toNat_toUInt64]; omega), UInt32.toNat_toUInt64]
      rfl
  | uint64 => exact hwide n
  | usize => exact hwide n

/-- With any written forms of decimals that are right about whole numbers, an integer has one
canonical spelling, which is its literal, and typing it gives the integer back. -/
theorem spelled_and_typed_back {forms : Forms} (h : forms.WholeNumbers) (τ : IntegerType)
    (n : τ.Carrier) :
    (∀ t : Text, t.SpellsInteger (τ.toInt n) ↔ t = (ofInteger τ n).literalIn forms) ∧
      ofTypedIn forms ((ofInteger τ n).literalIn forms) false = ofInteger τ n := by
  rcases ofInteger_cases τ n with ⟨k, hvalue, hk⟩ | ⟨u, hvalue, hu, hlarge⟩
  · rw [hvalue, ← hk]
    exact ⟨fun t => Text.spellsInteger_iff, ofTypedIn_integerText k⟩
  · have hliteral : (decimal (Decimal.ofUInt64 u)).literalIn forms = Text.ofNat u.toNat := h.write u
    rw [hvalue, hu, hliteral]
    refine ⟨fun t => ?_, ofTypedIn_ofNat h hlarge⟩
    rw [Text.spellsInteger_iff, integerText_of_nonneg (by omega), Int.natAbs_natCast]

/-- The literal of an integer of any machine type is the canonical decimal spelling of its
number and nothing else is. Typing that literal gives the value back: an integer of the same
number if the number fits in 64 bits with a sign, and otherwise the decimal without places that
is equal to it. -/
theorem integer_spelled_and_typed_back (τ : IntegerType) (n : τ.Carrier) :
    (∀ t : Text, t.SpellsInteger (τ.toInt n) ↔ t = (ofInteger τ n).literal) ∧
      ofTyped (ofInteger τ n).literal false = ofInteger τ n ∧
      (FitsInt64 (τ.toInt n) → ∃ k : Int64, ofInteger τ n = integer k ∧ k.toInt = τ.toInt n) ∧
      (¬FitsInt64 (τ.toInt n) → ∃ d : Decimal, ofInteger τ n = decimal d ∧
        d.negative = false ∧ d.scale = 0 ∧ d.mantissa = τ.toInt n) := by
  obtain ⟨hspelled, htyped⟩ := spelled_and_typed_back Forms.standard_wholeNumbers τ n
  refine ⟨hspelled, htyped, ?_⟩
  rcases ofInteger_cases τ n with ⟨k, hvalue, hk⟩ | ⟨u, hvalue, hu, hlarge⟩
  · rw [hvalue, ← hk]
    exact ⟨fun _ => ⟨k, rfl, rfl⟩, fun hfits => absurd (fitsInt64_toInt k) hfits⟩
  · rw [hvalue, hu]
    refine ⟨fun hfits => ?_, fun _ => ⟨_, rfl, rfl, rfl, rfl⟩⟩
    have hle := hfits.2
    rw [Int64.toInt_maxValue] at hle
    omega

end Sizes

end Value

end QueryTree
