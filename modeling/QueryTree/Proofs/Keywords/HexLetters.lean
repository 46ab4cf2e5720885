import QueryTree.Proofs.LetterCase.Text

/-!
# Clause words and hexadecimal letters

The letters from `A` to `F` are digits of a blob as well, so a blob may begin where a clause
word does. `ADD` is the only clause word that a blob can take up whole. Of the others a blob
takes up a few letters at most, and what it leaves over is not a word of the vocabulary.
-/

namespace QueryTree

variable {w v : Text}

theorem exists_clause_of_isClauseWord (h : isClauseWord w = true) :
    ∃ k : Keyword, k.isClause = true ∧ Text.upper w = k.spelling := by
  unfold isClauseWord at h
  obtain ⟨k, hk, hclause⟩ := (Option.any_eq_true _ _).mp h
  exact ⟨k, hclause, Keyword.upper_eq_of_ofText? hk⟩

theorem all_isAlpha_of_isClauseWord (h : isClauseWord w = true) : w.all Char.isAlpha = true := by
  obtain ⟨k, _, hk⟩ := exists_clause_of_isClauseWord h
  rw [← Text.all_upper Text.caseBlind_isAlpha, hk]
  cases k <;> decide

theorem ne_nil_of_isClauseWord (h : isClauseWord w = true) : w ≠ [] := by
  rintro rfl
  revert h
  decide

/-- `ADD` is the only clause word that is spelled with hexadecimal letters. -/
theorem upper_eq_add_of_isHexDigit (h : isClauseWord w = true)
    (hhex : ∀ c ∈ w, Text.isHexDigit c = true) : Text.upper w = Keyword.ADD.spelling := by
  have htable : (Keyword.all.filter Keyword.isClause).all (fun k =>
      !k.spelling.all Text.isHexDigit || k == .ADD) = true := by
    decide +kernel
  obtain ⟨k, hclause, hk⟩ := exists_clause_of_isClauseWord h
  have hentry := List.all_eq_true.mp htable k (List.mem_filter.mpr ⟨k.mem_all, hclause⟩)
  rw [← hk, Text.all_upper Text.caseBlind_isHexDigit, List.all_eq_true.mpr hhex] at hentry
  rw [hk, beq_iff_eq.mp hentry]

/-- No clause word is hexadecimal letters and a word of the vocabulary. -/
theorem not_isReservedWord_of_isHexDigit (h : isClauseWord (w ++ v) = true) (hne : w ≠ [])
    (hhex : ∀ c ∈ w, Text.isHexDigit c = true) : isReservedWord v = false := by
  have htable : (Keyword.all.filter Keyword.isClause).all (fun k =>
      (List.range k.spelling.length).all fun i =>
        !((k.spelling.take (i + 1)).all Text.isHexDigit &&
          isReservedWord (k.spelling.drop (i + 1)))) = true := by
    decide +kernel
  obtain ⟨k, hclause, hk⟩ := exists_clause_of_isClauseWord h
  obtain ⟨c, w, rfl⟩ := List.exists_cons_of_ne_nil hne
  rw [Text.upper_append] at hk
  have hlength : (c :: w).length = w.length + 1 := rfl
  have hentry := List.all_eq_true.mp (List.all_eq_true.mp htable k
    (List.mem_filter.mpr ⟨k.mem_all, hclause⟩)) w.length (by
      rw [List.mem_range, ← hk, List.length_append, Text.length_upper]
      omega)
  have htake : k.spelling.take (w.length + 1) = Text.upper (c :: w) := by
    rw [← hk, ← hlength, ← Text.length_upper, List.take_left]
  have hdrop : k.spelling.drop (w.length + 1) = Text.upper v := by
    rw [← hk, ← hlength, ← Text.length_upper, List.drop_left]
  rw [htake, hdrop, Text.all_upper Text.caseBlind_isHexDigit, List.all_eq_true.mpr hhex,
    isReservedWord, Keyword.ofText?_upper] at hentry
  simpa [isReservedWord] using hentry

end QueryTree
