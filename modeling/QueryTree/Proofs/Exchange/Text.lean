import QueryTree.Proofs.Derivation.Terminals
import QueryTree.Proofs.Marks.Token

/-!
# Exchanging pieces of a text

A piece of a text is a run of whitespace, a name between double quotes, a string or a
bind marker. Two texts agree up to an exchange if they are made of the same plain
characters, and between them of pieces that may be exchanged. A piece begins with a
special character on both sides, so a class of plain characters takes the same run off
both texts.
-/

namespace QueryTree

/-- What may be exchanged for what. -/
structure Exchange where
  /-- A run of whitespace for another one. -/
  layout : Text → Text → Prop
  /-- The text that a string stands for, for another one. -/
  string : Text → Text → Prop
  /-- A bind marker for a string that stands for some text, or for a marker again. -/
  mark : Option Text → Prop

namespace Exchange

/-- Whether a piece in front of one text may be exchanged for a piece in front of
another. A piece ends where it would end in front of either text. -/
inductive Piece (E : Exchange) (t u : Text) : Text → Text → Prop where
  | layout {w v : Text} (hw : Text.IsRun Text.isLayout w t) (hv : Text.IsRun Text.isLayout v u)
      (h : E.layout w v) : Piece E t u w v
  | name {body : Text} (hbody : body ≠ []) (halnum : ∀ c ∈ body, c.isAlphanum = true) :
      Piece E t u ('"' :: (body ++ ['"'])) ('"' :: (body ++ ['"']))
  | string {s s' : Text} (ht : t.head? ≠ some '\'') (hu : u.head? ≠ some '\'')
      (h : E.string s s') : Piece E t u (Text.quoted s) (Text.quoted s')
  | mark (h : E.mark none) : Piece E t u ['?'] ['?']
  | filled {s : Text} (hu : u.head? ≠ some '\'') (h : E.mark (some s)) :
      Piece E t u ['?'] (Text.quoted s)

/-- Whether two texts are the same up to an exchange of pieces. -/
inductive Texts (E : Exchange) : Text → Text → Prop where
  | nil : Texts E [] []
  | plain {c : Char} {t u : Text} (hc : Text.isPlain c = true) (h : Texts E t u) :
      Texts E (c :: t) (c :: u)
  | piece {w v t u : Text} (hpiece : E.Piece t u w v) (h : Texts E t u) :
      Texts E (w ++ t) (v ++ u)

variable {E : Exchange} {t u w v : Text} {p : Char → Bool}

theorem isLayout_mem_special {c : Char} (h : Text.isLayout c = true) : c ∈ Text.special := by
  simp only [Text.isLayout, Bool.or_eq_true, beq_iff_eq] at h
  rcases h with ((rfl | rfl) | rfl) | rfl <;> decide

/-- Pieces begin with special characters. -/
theorem Piece.heads (h : E.Piece t u w v) :
    ∃ c w' d v', w = c :: w' ∧ v = d :: v' ∧ c ∈ Text.special ∧ d ∈ Text.special := by
  cases h with
  | layout hw hv h =>
      obtain ⟨c, w', rfl, hc⟩ := hw.exists_cons
      obtain ⟨d, v', rfl, hd⟩ := hv.exists_cons
      exact ⟨c, w', d, v', rfl, rfl, isLayout_mem_special hc, isLayout_mem_special hd⟩
  | name hbody halnum => exact ⟨'"', _, '"', _, rfl, rfl, by decide, by decide⟩
  | string ht hu h => exact ⟨'\'', _, '\'', _, rfl, rfl, by decide, by decide⟩
  | mark h => exact ⟨'?', _, '?', _, rfl, rfl, by decide, by decide⟩
  | filled hu h => exact ⟨'?', _, '\'', _, rfl, rfl, by decide, by decide⟩

namespace Texts

/-- How two texts that agree up to an exchange begin. -/
theorem heads (h : E.Texts t u) :
    t = [] ∧ u = [] ∨
      (∃ c t' u', Text.isPlain c = true ∧ t = c :: t' ∧ u = c :: u' ∧ E.Texts t' u') ∨
      ∃ c t' d u', c ∈ Text.special ∧ d ∈ Text.special ∧ t = c :: t' ∧ u = d :: u' := by
  cases h with
  | nil => exact Or.inl ⟨rfl, rfl⟩
  | plain hc h => exact Or.inr (Or.inl ⟨_, _, _, hc, rfl, rfl, h⟩)
  | piece hpiece h =>
      obtain ⟨c, w', d, v', rfl, rfl, hc, hd⟩ := hpiece.heads
      exact Or.inr (Or.inr ⟨c, _, d, _, hc, hd, rfl, rfl⟩)

theorem plains (hw : ∀ c ∈ w, Text.isPlain c = true) (h : E.Texts t u) :
    E.Texts (w ++ t) (w ++ u) := by
  induction w with
  | nil => exact h
  | cons c w ih =>
      exact .plain (hw c List.mem_cons_self) (ih fun d hd => hw d (List.mem_cons_of_mem c hd))

theorem nil_iff (h : E.Texts t u) : t = [] ↔ u = [] := by
  rcases h.heads with ⟨rfl, rfl⟩ | ⟨c, t', u', _, rfl, rfl, _⟩ | ⟨c, t', d, u', _, _, rfl, rfl⟩ <;>
    simp

/-- A class of plain characters takes the same run off both texts. -/
theorem span (hp : Text.special.any p = false) (h : E.Texts t u) :
    t.takeWhile p = u.takeWhile p ∧ E.Texts (t.dropWhile p) (u.dropWhile p) := by
  induction h with
  | nil => exact ⟨rfl, .nil⟩
  | @plain c t u hc h ih =>
      cases hpc : p c with
      | false => simpa [hpc] using Texts.plain hc h
      | true => simpa [hpc] using ih
  | piece hpiece h ih =>
      have hall := Texts.piece hpiece h
      obtain ⟨c, w', d, v', rfl, rfl, hc, hd⟩ := hpiece.heads
      simpa [Text.eq_false_of_mem_special hp hc, Text.eq_false_of_mem_special hp hd] using hall

end Texts

/-- Two texts either begin with whitespace that may be exchanged, or neither of them
begins with whitespace. -/
theorem Texts.layout_or (h : E.Texts t u) :
    (∃ w v t' u', Text.IsRun Text.isLayout w t' ∧ Text.IsRun Text.isLayout v u' ∧
      E.layout w v ∧ E.Texts t' u' ∧ t = w ++ t' ∧ u = v ++ u') ∨
      t.takeWhile Text.isLayout = [] ∧ u.takeWhile Text.isLayout = [] := by
  cases h with
  | nil => exact Or.inr ⟨rfl, rfl⟩
  | @plain c t u hc h =>
      have hlayout : Text.isLayout c = false := by
        by_contra hlayout
        exact Text.isPlain_iff.mp hc (isLayout_mem_special (by simpa using hlayout))
      exact Or.inr ⟨by simp [hlayout], by simp [hlayout]⟩
  | piece hpiece h =>
      cases hpiece with
      | layout hw hv hwv => exact Or.inl ⟨_, _, _, _, hw, hv, hwv, h, rfl, rfl⟩
      | name hbody halnum => exact Or.inr ⟨rfl, rfl⟩
      | string ht hu hs => exact Or.inr ⟨rfl, rfl⟩
      | mark hmark => exact Or.inr ⟨rfl, rfl⟩
      | filled hu hmark => exact Or.inr ⟨rfl, rfl⟩

/-- If no marker is exchanged for a string, a quote begins the second text only if it begins
the first. -/
theorem Texts.head?_quote (hE : ∀ s, ¬ E.mark (some s)) (h : E.Texts t u)
    (hu : u.head? = some '\'') : t.head? = some '\'' := by
  cases h with
  | nil => cases hu
  | plain hc h => exact hu
  | piece hpiece h =>
      cases hpiece with
      | layout hw hv _ =>
          obtain ⟨x, v', rfl, hx⟩ := hv.exists_cons
          obtain rfl : x = '\'' := by simpa using hu
          cases hx
      | name hbody halnum => cases hu
      | string ht hu hs => rfl
      | mark hmark => cases hu
      | filled hu hmark => exact absurd hmark (hE _)

/-- Whitespace begins the second text only if it begins the first. -/
theorem Texts.head?_layout (h : E.Texts t u) (ht : ∀ c ∈ t.head?, Text.isLayout c = false) :
    ∀ c ∈ u.head?, Text.isLayout c = false := by
  rcases h.layout_or with ⟨w, v, t', u', hw, hv, _, h', rfl, rfl⟩ | ⟨_, hu⟩
  · obtain ⟨x, w', rfl, hx⟩ := hw.exists_cons
    rw [ht x rfl] at hx
    cases hx
  · intro c hc
    cases u with
    | nil => cases hc
    | cons d u =>
        obtain rfl := Option.some.inj hc
        by_contra hlayout
        rw [List.takeWhile_cons_of_pos (by simpa using hlayout)] at hu
        cases hu

theorem Texts.dropLayout (h : E.Texts t u) :
    E.Texts (t.dropWhile Text.isLayout) (u.dropWhile Text.isLayout) := by
  rcases h.layout_or with ⟨w, v, t', u', hw, hv, _, h', rfl, rfl⟩ | ⟨ht, hu⟩
  · rwa [hw.dropWhile_append, hv.dropWhile_append]
  · have hsplit := List.takeWhile_append_dropWhile (p := Text.isLayout) (l := t)
    have hsplit' := List.takeWhile_append_dropWhile (p := Text.isLayout) (l := u)
    rw [ht, List.nil_append] at hsplit
    rw [hu, List.nil_append] at hsplit'
    rwa [hsplit, hsplit']

end Exchange

end QueryTree
