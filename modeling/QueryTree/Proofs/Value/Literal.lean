import QueryTree.Proofs.Derivation.Quotation
import QueryTree.Value.Basic

/-!
# Literals that are strings

Texts and timestamps are written as strings. A timestamp is written without
quotes, so its literal is a quoted text as well.
-/

namespace QueryTree

theorem Text.isDigit_of_mem_ofNat {n : Nat} {c : Char} (h : c ∈ Text.ofNat n) :
    c.isDigit = true :=
  Nat.isDigit_of_mem_toDigits (by decide) (by decide) h

theorem Text.isDigit_of_mem_ofNatPadded {width n : Nat} {c : Char}
    (h : c ∈ Text.ofNatPadded width n) : c.isDigit = true := by
  rcases List.mem_append.mp h with h | h
  · rw [List.eq_of_mem_replicate h]
    decide
  · exact Text.isDigit_of_mem_ofNat h

theorem Text.quote_notMem_ofNatPadded (width n : Nat) : '\'' ∉ Text.ofNatPadded width n := by
  intro h
  cases Text.isDigit_of_mem_ofNatPadded h

theorem Timestamp.quote_notMem_yearText (year : Int) : '\'' ∉ yearText year := by
  intro h
  rcases List.mem_append.mp h with h | h
  · split at h
    · simp at h
    · split at h <;> simp at h
  · exact Text.quote_notMem_ofNatPadded _ _ h

theorem Timestamp.quote_notMem_toText (t : Timestamp) : '\'' ∉ t.toText := by
  have hpadded := Text.quote_notMem_ofNatPadded
  have hyear := Timestamp.quote_notMem_yearText
  simp [Timestamp.toText, hpadded, hyear]

namespace Value

/-- The text that the literal of a value stands for, if the literal is a string. -/
def text? : Value → Option Text
  | text t => some t
  | timestamp t => some t.toText
  | _ => none

theorem literalIn_timestamp {forms : Forms} {t : Timestamp}
    (h : '\'' ∉ forms.writeTimestamp t) :
    (timestamp t).literalIn forms = Text.quoted (forms.writeTimestamp t) := by
  rw [literalIn, Text.quoted, Text.doubleQuotes_of_notMem h]

theorem literal_of_text? {v : Value} {s : Text} (h : v.text? = some s) :
    v.literal = Text.quoted s := by
  cases v with
  | text t =>
      obtain rfl := Option.some.inj h
      rfl
  | timestamp t =>
      obtain rfl := Option.some.inj h
      exact literalIn_timestamp t.quote_notMem_toText
  | _ => cases h

theorem map_literal_of_text? {values : List Value} {texts : List Text}
    (h : values.map text? = texts.map some) :
    values.map literal = texts.map Text.quoted := by
  induction values generalizing texts with
  | nil => rw [List.map_eq_nil_iff.mp h.symm, List.map_nil, List.map_nil]
  | cons v values ih =>
      cases texts with
      | nil => cases h
      | cons s texts =>
          rw [List.map_cons, List.map_cons, List.cons.injEq] at h
          rw [List.map_cons, List.map_cons, literal_of_text? h.1, ih h.2]

end Value

end QueryTree
