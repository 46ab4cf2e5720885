import QueryTree.Proofs.Injection.Safety
import QueryTree.Proofs.Value.Bare

/-!
# Bound values keep the sides of quotes

A literal has an even number of quotes. So what is copied from a query stands on the same
side of the quotes in the bound text as in the query, wherever the placeholders are and
whatever touches them.
-/

namespace QueryTree

namespace Text

/-- Whether a scan is inside of a string after a text. -/
def insideAfter : Bool → Text → Bool
  | inString, [] => inString
  | inString, c :: t => insideAfter (if c = '\'' then !inString else inString) t

/-- A scan goes on from where it is after the first part of a text. -/
theorem markOffsets_append (inString : Bool) (offset : Nat) (w t : Text) :
    markOffsets inString offset (w ++ t) = markOffsets inString offset w ++
      markOffsets (insideAfter inString w) (offset + byteSize w) t := by
  induction w generalizing inString offset with
  | nil => rfl
  | cons c w ih =>
      rw [List.cons_append, markOffsets, markOffsets, insideAfter, byteSize_cons,
        ← Nat.add_assoc]
      by_cases hquote : c = '\''
      · rw [if_pos hquote, if_pos hquote, if_pos hquote, ih]
      · rw [if_neg hquote, if_neg hquote, if_neg hquote]
        by_cases hmark : c = '?' ∧ inString = false
        · rw [if_pos hmark, if_pos hmark, ih, List.cons_append]
        · rw [if_neg hmark, if_neg hmark, ih]

/-- The marks of the first part of a text take the first texts. -/
theorem fillMarks_append (inString : Bool) (offset : Nat) (w t : Text) (texts : List Text) :
    fillMarks inString (w ++ t) texts = fillMarks inString w texts ++
      fillMarks (insideAfter inString w) t
        (texts.drop (markOffsets inString offset w).length) := by
  induction w generalizing inString offset texts with
  | nil => rfl
  | cons c w ih =>
      rw [List.cons_append, fillMarks, fillMarks, markOffsets, insideAfter]
      by_cases hquote : c = '\''
      · rw [if_pos hquote, if_pos hquote, if_pos hquote, if_pos hquote, List.cons_append, ih]
      · rw [if_neg hquote, if_neg hquote, if_neg hquote, if_neg hquote]
        by_cases hmark : c = '?' ∧ inString = false
        · rw [if_pos hmark, if_pos hmark, if_pos hmark, List.length_cons, List.append_assoc,
            ih, List.drop_tail]
        · rw [if_neg hmark, if_neg hmark, if_neg hmark, List.cons_append, ih]

/-- A character that is no mark is copied. -/
theorem exists_fillMarks_cons {inString : Bool} {offset : Nat} {c : Char} {t : Text}
    (texts : List Text) (h : offset ∉ markOffsets inString offset (c :: t)) :
    ∃ t', fillMarks inString (c :: t) texts = c :: t' := by
  unfold fillMarks
  by_cases hquote : c = '\''
  · exact ⟨_, if_pos hquote⟩
  · have hmark : ¬(c = '?' ∧ inString = false) := fun hmark => h (by
      rw [markOffsets, if_neg hquote, if_pos hmark]
      exact List.mem_cons_self)
    exact ⟨_, by rw [if_neg hquote, if_neg hmark]⟩

/-- Texts with an even number of quotes each keep whether that of a text is even. -/
theorem even_count_quote_fillMarks {texts : List Text}
    (h : ∀ w ∈ texts, Even (w.count '\'')) (inString : Bool) (t : Text) :
    Even ((fillMarks inString t texts).count '\'') ↔ Even (t.count '\'') := by
  induction t generalizing inString texts with
  | nil => rfl
  | cons c t ih =>
      rw [fillMarks]
      by_cases hquote : c = '\''
      · rw [if_pos hquote, hquote, List.count_cons_self, List.count_cons_self,
          Nat.even_add_one, Nat.even_add_one, ih h]
      · rw [if_neg hquote, List.count_cons_of_ne hquote]
        split
        · have hhead : Even ((texts.headD [c]).count '\'') := by
            cases texts with
            | nil => simp [List.count_cons_of_ne hquote]
            | cons w texts => exact h w List.mem_cons_self
          rw [List.count_append, Nat.even_add, ih fun w hw => h w (List.mem_of_mem_tail hw)]
          exact ⟨fun hiff => hiff.mp hhead, fun ht => iff_of_true hhead ht⟩
        · rw [List.count_cons_of_ne hquote, ih h]

end Text

open Node

/-- No value moves a part of a query across a quote. Every literal is a string or a bare
word, so its quotes are even in number. If a value of any kind is bound to each placeholder
of a query, what comes before a character that is copied from the query, which is what came
before it with the literals in the place of the marks, has an even number of quotes exactly
if this was so in the query. -/
theorem bound_values_keep_sides (depth : Nat) (q : Text) :
    (∀ v : Value, ((∃ s, v.literal = Text.quoted s) ∨ v.literal.IsBare) ∧
      Even (v.literal.count '\'')) ∧
    ∀ root, parse depth q = .ok root → ∀ values : List Value,
      values.length = root.count .placeholderInject →
      ∃ bound, root.bind values = .ok (bound, values.length) ∧
        bound.text = Text.fillMarks false q (values.map Value.literal) ∧
        ∀ before c after, q = before ++ c :: after →
          Text.byteSize before ∉ (root.nodes .placeholderInject).map (start q) →
          ∃ before' after', before' = Text.fillMarks false before (values.map Value.literal) ∧
            bound.text = before' ++ c :: after' ∧
            (Even (before'.count '\'') ↔ Even (before.count '\'')) := by
  have heven : ∀ v : Value, Even (v.literal.count '\'') :=
    Value.even_count_quote_literalIn Value.Forms.standard_bare
  refine ⟨fun v => ⟨Value.literalIn_quoted_or_isBare Value.Forms.standard_bare v, heven v⟩, ?_⟩
  intro root h values hlength
  have hformed := formed_of_parse h
  have hopen : values.length = root.countOpen .placeholderInject := by
    rw [hlength, count_placeholders h, countOpen_eq_length_marks hformed]
  refine ⟨fillOpen values root, (bind_eq_ok hformed.atomicMarks).mpr ⟨hopen, rfl, rfl⟩,
    text_fillOpen h values, ?_⟩
  rintro before c after rfl hcopied
  rw [start_placeholders h, Text.markOffsets_append, Nat.zero_add, List.mem_append,
    not_or] at hcopied
  obtain ⟨after', hafter⟩ := Text.exists_fillMarks_cons
    ((values.map Value.literal).drop (Text.markOffsets false 0 before).length) hcopied.2
  refine ⟨_, after', rfl, ?_, ?_⟩
  · rw [text_fillOpen h, Text.fillMarks_append false 0, hafter]
  · apply Text.even_count_quote_fillMarks
    rintro w hw
    obtain ⟨v, _, rfl⟩ := List.mem_map.mp hw
    exact heven v

/-- Two placeholders that a string touches. The text in the string stays in it. -/
theorem bound_values_keep_sides_touching :
    ∃ root, parse 2 "SELECT ?'c'? FROM t".toList = .ok root ∧
      ∃ bound, root.bind [.text "a'b".toList, .null] = .ok (bound, 2) ∧
        ∃ before' after', bound.text = before' ++ 'c' :: after' ∧
          (Even (before'.count '\'') ↔ Even ("SELECT ?'".toList.count '\'')) := by
  obtain ⟨root, hroot⟩ := exists_tree_of_isOk 2 "SELECT ?'c'? FROM t".toList (by decide +kernel)
  have hcount : root.count .placeholderInject = 2 := by
    rw [← countOpen_eq_count _ ((formed_of_parse hroot).mono fun _ hm => hm.unwritten),
      countOpen_placeholders hroot]
    decide +kernel
  obtain ⟨bound, hbound, _, hsides⟩ := (bound_values_keep_sides 2 "SELECT ?'c'? FROM t".toList).2
    root hroot [.text "a'b".toList, .null] hcount.symm
  obtain ⟨before', after', _, htext, heven⟩ := hsides "SELECT ?'".toList 'c' "'? FROM t".toList
    (by decide) (by rw [start_placeholders hroot]; decide +kernel)
  exact ⟨root, hroot, bound, hbound, before', after', htext, heven⟩

end QueryTree
