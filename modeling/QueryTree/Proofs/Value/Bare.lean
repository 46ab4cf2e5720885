import Mathlib.Algebra.Ring.Parity
import QueryTree.Proofs.Value.Literal

/-!
# Literals that are no strings

Every value but a text or a timestamp is written as a bare word, which has neither quotes
nor anything else that ends a word. So the quotes of a literal are even in number, whatever
the value is. Of the written forms of decimals and timestamps it is used only that they are
bare words and texts without quotes.
-/

namespace QueryTree

namespace Text

/-- Whether a character may stand in a bare word: a letter or digit of ASCII, a sign or a
point. -/
def isBare (c : Char) : Bool :=
  c.isAlphanum || c == '+' || c == '-' || c == '.'

/-- Whether a text is a bare word. -/
def IsBare (w : Text) : Prop :=
  w ≠ [] ∧ ∀ c ∈ w, isBare c = true

theorem isBare_of_isDigit {c : Char} (h : c.isDigit = true) : isBare c = true := by
  simp [isBare, Char.isAlphanum, h]

theorem isBare_of_mem_ofNat {n : Nat} {c : Char} (h : c ∈ ofNat n) : isBare c = true :=
  isBare_of_isDigit (isDigit_of_mem_ofNat h)

theorem isBare_of_mem_ofNatPadded {width n : Nat} {c : Char} (h : c ∈ ofNatPadded width n) :
    isBare c = true :=
  isBare_of_isDigit (isDigit_of_mem_ofNatPadded h)

theorem isBare_of_mem_sign {p : Prop} [Decidable p] {c : Char}
    (h : c ∈ if p then ['-'] else []) : isBare c = true := by
  split at h
  · exact List.mem_singleton.mp h ▸ rfl
  · cases h

theorem ofNat_ne_nil (n : Nat) : ofNat n ≠ [] :=
  Nat.toDigits_ne_nil

theorem le_length_ofNatPadded (width n : Nat) : width ≤ (ofNatPadded width n).length := by
  rw [ofNatPadded, List.length_append, List.length_replicate]
  omega

theorem IsBare.count_quote {w : Text} (h : w.IsBare) : w.count '\'' = 0 :=
  List.count_eq_zero.mpr fun hquote => by cases h.2 '\'' hquote

theorem count_quote_doubleQuotes (s : Text) :
    (doubleQuotes s).count '\'' = 2 * s.count '\'' := by
  induction s with
  | nil => rfl
  | cons c s ih =>
      by_cases hc : c = '\''
      · subst hc
        simp only [doubleQuotes_quote_cons, List.count_cons_self, ih]
        omega
      · rw [doubleQuotes_cons_of_ne hc, List.count_cons_of_ne hc, List.count_cons_of_ne hc, ih]

/-- Of each quote in a text there are two in its quotation, and two are around it. -/
theorem count_quote_quoted (s : Text) : (quoted s).count '\'' = 2 * (s.count '\'' + 1) := by
  simp only [quoted, List.count_cons_self, List.count_append, count_quote_doubleQuotes,
    List.count_nil]
  omega

end Text

namespace Binary64

variable {digits : Text}

theorem isBare_of_mem_dropTrailingZeros (h : ∀ c ∈ digits, Text.isBare c = true) :
    ∀ c ∈ dropTrailingZeros digits, Text.isBare c = true := fun c hc =>
  h c (List.mem_reverse.mp (List.dropWhile_subset _ (List.mem_reverse.mp hc)))

theorem isBare_of_mem_layout (h : ∀ c ∈ digits, Text.isBare c = true) (k : Int) :
    ∀ c ∈ layout digits k, Text.isBare c = true := by
  have htake : ∀ n, ∀ c ∈ digits.take n, Text.isBare c = true := fun n c hc =>
    h c (List.mem_of_mem_take hc)
  have hdrop : ∀ n, ∀ c ∈ digits.drop n, Text.isBare c = true := fun n c hc =>
    h c (List.mem_of_mem_drop hc)
  have hzeros : ∀ n, ∀ c ∈ List.replicate n '0', Text.isBare c = true := fun n c hc =>
    List.eq_of_mem_replicate hc ▸ rfl
  have hpoint : Text.isBare '.' = true := rfl
  have hmark : Text.isBare 'e' = true := rfl
  unfold layout
  split
  · simp only [List.forall_mem_append, List.forall_mem_cons]
    refine ⟨⟨htake 1, ?_⟩, hmark, ?_, fun c hc => Text.isBare_of_mem_ofNat hc⟩
    · split
      · nofun
      · exact List.forall_mem_cons.mpr ⟨hpoint, hdrop 1⟩
    · exact fun c hc => Text.isBare_of_mem_sign hc
  · split
    · simp only [List.forall_mem_append]
      exact ⟨⟨List.all_eq_true.mp rfl, hzeros _⟩, h⟩
    · simp only [List.forall_mem_append, List.forall_mem_cons]
      refine ⟨⟨htake _, hzeros _⟩, hpoint, ?_⟩
      split
      · exact List.all_eq_true.mp rfl
      · exact hdrop _

theorem layout_ne_nil (digits : Text) (k : Int) : layout digits k ≠ [] := by
  unfold layout
  split
  · simp
  · split <;> simp

theorem isBare_toText (x : Binary64) : x.toText.IsBare := by
  cases x with
  | nan => exact ⟨List.cons_ne_nil _ _, List.all_eq_true.mp rfl⟩
  | infinity negative =>
      cases negative <;> exact ⟨List.cons_ne_nil _ _, List.all_eq_true.mp rfl⟩
  | finite negative significand exponent =>
      have hsign : ∀ c ∈ if negative then ['-'] else [], Text.isBare c = true :=
        fun c hc => Text.isBare_of_mem_sign hc
      simp only [toText]
      split
      · exact ⟨List.append_ne_nil_of_right_ne_nil _ (List.cons_ne_nil _ _),
          List.forall_mem_append.mpr ⟨hsign, List.all_eq_true.mp rfl⟩⟩
      · refine ⟨List.append_ne_nil_of_right_ne_nil _ (layout_ne_nil _ _),
          List.forall_mem_append.mpr ⟨hsign, ?_⟩⟩
        exact isBare_of_mem_layout (isBare_of_mem_dropTrailingZeros fun c hc =>
          Text.isBare_of_mem_ofNat hc) _

end Binary64

theorem Decimal.isBare_toText (d : Decimal) : d.toText.IsBare := by
  have hdigits : ∀ c ∈ Text.ofNatPadded (d.scale + 1) d.mantissa, Text.isBare c = true :=
    fun c hc => Text.isBare_of_mem_ofNatPadded hc
  constructor
  · -- there are more digits than decimal places, so some stand before the point
    have hlength := Text.le_length_ofNatPadded (d.scale + 1) d.mantissa
    refine List.append_ne_nil_of_left_ne_nil (List.append_ne_nil_of_right_ne_nil _ ?_) _
    rw [← List.length_pos_iff, List.length_take]
    omega
  · simp only [toText, List.forall_mem_append]
    refine ⟨⟨fun c hc => Text.isBare_of_mem_sign hc,
      fun c hc => hdigits c (List.mem_of_mem_take hc)⟩, ?_⟩
    split
    · nofun
    · exact List.forall_mem_cons.mpr ⟨rfl, fun c hc => hdigits c (List.mem_of_mem_drop hc)⟩

namespace Value

/-- Whether decimals are written as bare words and timestamps without quotes. -/
structure Forms.Bare (forms : Forms) : Prop where
  decimal : ∀ d, (forms.writeDecimal d).IsBare
  timestamp : ∀ t, '\'' ∉ forms.writeTimestamp t

theorem Forms.standard_bare : Forms.standard.Bare where
  decimal := Decimal.isBare_toText
  timestamp := Timestamp.quote_notMem_toText

variable {forms : Forms}

/-- Every literal is a string or a bare word. -/
theorem literalIn_quoted_or_isBare (h : forms.Bare) (v : Value) :
    (∃ s, v.literalIn forms = Text.quoted s) ∨ (v.literalIn forms).IsBare := by
  cases v with
  | null => exact Or.inr ⟨List.cons_ne_nil _ _, List.all_eq_true.mp rfl⟩
  | boolean b =>
      refine Or.inr ?_
      cases b <;> exact ⟨List.cons_ne_nil _ _, List.all_eq_true.mp rfl⟩
  | integer n =>
      refine Or.inr ⟨List.append_ne_nil_of_right_ne_nil _ (Text.ofNat_ne_nil _), ?_⟩
      exact List.forall_mem_append.mpr ⟨fun c hc => Text.isBare_of_mem_sign hc,
        fun c hc => Text.isBare_of_mem_ofNat hc⟩
  | float x => exact Or.inr x.isBare_toText
  | decimal d => exact Or.inr (h.decimal d)
  | text t => exact Or.inl ⟨t, rfl⟩
  | timestamp t => exact Or.inl ⟨_, literalIn_timestamp (h.timestamp t)⟩

/-- The quotes of a literal are even in number. -/
theorem even_count_quote_literalIn (h : forms.Bare) (v : Value) :
    Even ((v.literalIn forms).count '\'') := by
  rcases literalIn_quoted_or_isBare h v with ⟨s, hs⟩ | hbare
  · rw [hs, Text.count_quote_quoted]
    exact even_two_mul _
  · rw [hbare.count_quote]
    exact Even.zero

end Value

end QueryTree
