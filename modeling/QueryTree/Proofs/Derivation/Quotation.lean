import QueryTree.Grammar.Terminal
import QueryTree.Value.Quoted

/-!
# Strings and the texts they stand for

Reading a string is the inverse of quoting a text: a string is found exactly in front
of a rest that does not go on with a quote, and it is the quotation of one text.
-/

namespace QueryTree

namespace Text

@[simp] theorem doubleQuotes_nil : doubleQuotes [] = [] := rfl

theorem doubleQuotes_cons_of_ne {c : Char} (h : c ≠ '\'') (t : Text) :
    doubleQuotes (c :: t) = c :: doubleQuotes t := by
  simp [doubleQuotes, h]

@[simp] theorem doubleQuotes_quote_cons (t : Text) :
    doubleQuotes ('\'' :: t) = '\'' :: '\'' :: doubleQuotes t := by
  simp [doubleQuotes]

@[simp] theorem doubleQuotes_eq_nil {t : Text} : doubleQuotes t = [] ↔ t = [] := by
  cases t with
  | nil => simp
  | cons c t =>
      by_cases hc : c = '\''
      · simp [hc]
      · simp [doubleQuotes_cons_of_ne hc]

/-- A text without quotes is quoted as it is. -/
theorem doubleQuotes_of_notMem {t : Text} (h : '\'' ∉ t) : doubleQuotes t = t := by
  induction t with
  | nil => rfl
  | cons c t ih =>
      rw [List.mem_cons, not_or] at h
      rw [doubleQuotes_cons_of_ne (Ne.symm h.1), ih h.2]

theorem doubleQuotes_injective {s s' : Text} (h : doubleQuotes s = doubleQuotes s') :
    s = s' := by
  induction s generalizing s' with
  | nil => exact (doubleQuotes_eq_nil.mp h.symm).symm
  | cons c s ih =>
      cases s' with
      | nil => exact doubleQuotes_eq_nil.mp h
      | cons d s' =>
          by_cases hc : c = '\''
          · subst hc
            by_cases hd : d = '\''
            · subst hd
              rw [doubleQuotes_quote_cons, doubleQuotes_quote_cons] at h
              rw [ih (List.cons.inj (List.cons.inj h).2).2]
            · rw [doubleQuotes_quote_cons, doubleQuotes_cons_of_ne hd] at h
              exact absurd (List.cons.inj h).1.symm hd
          · by_cases hd : d = '\''
            · subst hd
              rw [doubleQuotes_quote_cons, doubleQuotes_cons_of_ne hc] at h
              exact absurd (List.cons.inj h).1 hc
            · rw [doubleQuotes_cons_of_ne hc, doubleQuotes_cons_of_ne hd] at h
              rw [(List.cons.inj h).1, ih (List.cons.inj h).2]

theorem quoted_append (s rest : Text) :
    quoted s ++ rest = '\'' :: (doubleQuotes s ++ '\'' :: rest) := by
  simp [quoted]

/-- Whether an input is the quotation of a text in front of a rest, and the rest does not
go on with a quote. -/
structure BeginsQuoted (input s rest : Text) : Prop where
  cover : input = quoted s ++ rest
  closed : rest.head? ≠ some '\''

end Text

namespace Grammar

open Recognizer Text

theorem splitQuoted_cons_of_ne {c : Char} (h : c ≠ '\'') (t : Text) :
    splitQuoted (c :: t) = (c :: (splitQuoted t).1, (splitQuoted t).2) := by
  rw [splitQuoted]
  · intro u hc
    exact absurd hc h
  · exact h

theorem splitQuoted_quote {t : Text} (h : t.head? ≠ some '\'') :
    splitQuoted ('\'' :: t) = ([], '\'' :: t) := by
  rw [splitQuoted]
  rintro u rfl
  exact h rfl

/-- In front of a closing quote the body of a string is the doubled text. -/
theorem splitQuoted_doubleQuotes (s : Text) {rest : Text} (h : rest.head? ≠ some '\'') :
    splitQuoted (doubleQuotes s ++ '\'' :: rest) = (doubleQuotes s, '\'' :: rest) := by
  induction s with
  | nil => exact splitQuoted_quote h
  | cons c s ih =>
      by_cases hc : c = '\''
      · subst hc
        simp [splitQuoted, ih]
      · rw [doubleQuotes_cons_of_ne hc, List.cons_append, splitQuoted_cons_of_ne hc, ih]

/-- The body of a string is a doubled text, and it ends with the text or at a quote
that is not doubled. -/
theorem splitQuoted_spec (t : Text) :
    ∃ s, (splitQuoted t).1 = doubleQuotes s ∧
      ((splitQuoted t).2 = [] ∨
        ∃ rest, (splitQuoted t).2 = '\'' :: rest ∧ rest.head? ≠ some '\'') := by
  fun_induction splitQuoted t with
  | case1 => exact ⟨[], rfl, Or.inl rfl⟩
  | case2 t ih =>
      obtain ⟨s, hs, hrest⟩ := ih
      exact ⟨'\'' :: s, by simp [hs], hrest⟩
  | case3 t hne =>
      refine ⟨[], rfl, Or.inr ⟨t, rfl, ?_⟩⟩
      intro h
      obtain ⟨rest, rfl⟩ := List.head?_eq_some_iff.mp h
      exact hne rest rfl
  | case4 c t hpair hsingle ih =>
      obtain ⟨s, hs, hrest⟩ := ih
      have hc : c ≠ '\'' := fun hc => hsingle hc
      exact ⟨c :: s, by simp [doubleQuotes_cons_of_ne hc, hs], hrest⟩

/-- A text can be told from its quotation in front of a text that does not go on with
a quote. -/
theorem quoted_append_inj {s s' rest rest' : Text} (hrest : rest.head? ≠ some '\'')
    (hrest' : rest'.head? ≠ some '\'') (h : quoted s ++ rest = quoted s' ++ rest') :
    s = s' ∧ rest = rest' := by
  rw [quoted_append, quoted_append] at h
  have hsplit := splitQuoted_doubleQuotes s hrest
  rw [(List.cons.inj h).2, splitQuoted_doubleQuotes s' hrest', Prod.mk.injEq] at hsplit
  exact ⟨(doubleQuotes_injective hsplit.1).symm, (List.cons.inj hsplit.2).2.symm⟩

/-- The parts of a string that stands for a text. -/
def quotationParts (s rest : Text) : List Node :=
  Node.leaf .quote ['\''] (doubleQuotes s ++ '\'' :: rest) ::
    ((if s.isEmpty then [] else [Node.leaf .inputCharacters (doubleQuotes s) ('\'' :: rest)]) ++
      [Node.leaf .quote ['\''] rest])

/-- The string that stands for a text, in front of a rest. -/
def quotation (s rest : Text) : Node :=
  Node.branch .string (Node.chain (quotationParts s rest)) rest

theorem quotationParts_spelling (s rest : Text) :
    ((quotationParts s rest).map Node.spelling).flatten = quoted s := by
  cases s with
  | nil => rfl
  | cons c s => simp [quotationParts, quoted, Node.leaf]

@[simp] theorem quotation_spelling (s rest : Text) : (quotation s rest).spelling = quoted s := by
  change ((Node.chain _).map Node.spelling).flatten = _
  rw [Node.map_spelling_chain, quotationParts_spelling]

theorem quote_cons (rest : Text) :
    quote ('\'' :: rest) = .found (Node.leaf .quote ['\''] rest) rest := rfl

theorem quote_nil : quote [] = .absent := rfl

theorem quote_eq_absent {t : Text} (h : t.head? ≠ some '\'') : quote t = .absent := by
  cases t with
  | nil => rfl
  | cons c t =>
      have hc : c ≠ '\'' := by simpa using h
      simp [quote, delimiter, single, hc]

theorem string_eq_absent {t : Text} (h : t.head? ≠ some '\'') : string t = .absent := by
  simp [string, stringUnder, node, seq, one, quote_eq_absent h]

/-- A quoted text is read as the string that stands for it. -/
theorem string_quoted (s : Text) {rest : Text} (h : rest.head? ≠ some '\'') :
    string (quoted s ++ rest) = .found (quotation s rest) rest := by
  have hsplit := splitQuoted_doubleQuotes s h
  rw [quoted_append]
  cases s with
  | nil =>
      simp only [doubleQuotes_nil, List.nil_append] at hsplit ⊢
      simp [string, stringUnder, node, seq, one, quote_cons, Recognizer.optional, orElse,
        inputCharacters, hsplit, orFault, quotation, quotationParts]
  | cons c s =>
      obtain ⟨d, body, hbody⟩ : ∃ d body, doubleQuotes (c :: s) = d :: body :=
        List.exists_cons_of_ne_nil (by simp)
      simp only [hbody, List.cons_append] at hsplit ⊢
      simp [string, stringUnder, node, seq, one, quote_cons, Recognizer.optional, orElse,
        inputCharacters, hsplit, orFault, quotation, quotationParts, hbody]

/-- A string that is opened has to be closed. -/
theorem string_of_splitQuoted_nil {t : Text} (h : (splitQuoted t).2 = []) :
    string ('\'' :: t) = .broken (.unterminated .string '\'' (.start [])) := by
  have ht : (splitQuoted t).1 = t := by
    simpa [h] using splitQuoted_append t
  have hsplit : splitQuoted t = (t, []) := Prod.ext ht h
  cases t with
  | nil => rfl
  | cons c t =>
      simp [string, stringUnder, node, seq, one, quote_cons, Recognizer.optional, orElse,
        inputCharacters, hsplit, orFault, quote_nil]

/-- A string is absent, or it is found as the quotation at the front of the input, or it is
opened and not closed. -/
theorem string_cases (input : Text) :
    (input.head? ≠ some '\'' ∧ string input = .absent) ∨
      (∃ s rest, BeginsQuoted input s rest ∧ string input = .found (quotation s rest) rest) ∨
      (input.head? = some '\'' ∧ (¬∃ s rest, BeginsQuoted input s rest) ∧
        string input = .broken (.unterminated .string '\'' (.start []))) := by
  by_cases hquote : input.head? = some '\''
  · obtain ⟨t, rfl⟩ := List.head?_eq_some_iff.mp hquote
    obtain ⟨s, hs, hend | ⟨rest, hend, hclosed⟩⟩ := splitQuoted_spec t
    · have hbroken := string_of_splitQuoted_nil hend
      refine Or.inr (Or.inr ⟨hquote, ?_, hbroken⟩)
      rintro ⟨s, rest, h⟩
      rw [h.cover, string_quoted s h.closed] at hbroken
      cases hbroken
    · have hcover : '\'' :: t = quoted s ++ rest := by
        rw [quoted_append, ← hend, ← hs, splitQuoted_append]
      refine Or.inr (Or.inl ⟨s, rest, ⟨hcover, hclosed⟩, ?_⟩)
      rw [hcover, string_quoted s hclosed]
  · exact Or.inl ⟨hquote, string_eq_absent hquote⟩

/-- Only quoted texts are read as strings. -/
theorem eq_quoted_of_string {t rest : Text} {n : Node} (h : string t = .found n rest) :
    ∃ s, t = quoted s ++ rest ∧ rest.head? ≠ some '\'' ∧ n = quotation s rest := by
  rcases string_cases t with ⟨_, hstring⟩ | ⟨s, u, hquoted, hstring⟩ | ⟨_, _, hstring⟩
  · cases hstring.symm.trans h
  · obtain ⟨rfl, rfl⟩ := Reading.found.inj (hstring.symm.trans h)
    exact ⟨s, hquoted.cover, hquoted.closed, rfl⟩
  · cases hstring.symm.trans h

end Grammar

end QueryTree
