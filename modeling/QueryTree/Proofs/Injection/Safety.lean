import QueryTree.Proofs.Injection.Filling
import QueryTree.Proofs.Value.Literal

/-!
# Bound texts cannot inject anything

A query that texts and timestamps are bound to is read into its own tree with string
literals for the placeholders, whatever these texts are. The only exception are
placeholders that a quote or another placeholder touches: there two strings run together.
-/

namespace QueryTree

open Node

theorem count_placeholders {depth : Nat} {q : Text} {root : Node}
    (h : parse depth q = .ok root) :
    root.count .placeholderInject = (marks root.tokens).length := by
  rw [count, nodes_placeholder (formed_of_parse h), marks]

/-- Texts for the marks of a source whose marks are apart are read as string literals. -/
theorem parse_fillTokens {depth : Nat} {q : Text} {root : Node} {texts : List Text}
    (h : parse depth q = .ok root) (hapart : Apart root.tokens)
    (hlength : texts.length = (marks root.tokens).length) :
    parse depth (fillTokens root.tokens (texts.map Text.quoted)) =
      .ok (root.insertTexts texts []) := by
  have htiles := tiles_tokens_of_parse h
  have htokens : ∀ n ∈ root.tokens, n.IsToken := fun n hn => isToken_of_parse h hn
  have hformed := formed_of_parse h
  obtain ⟨root', h', hexchanged⟩ :=
    exists_exchanged_tree h (Exchange.texts_fillTokens htiles htokens hapart hlength.ge)
  obtain ⟨hcover, hfollowing⟩ := tiles_singleton.mp (derives_of_parse h').tiles
  obtain ⟨texts', hlength', hroot⟩ := exists_insertTexts hexchanged hformed
    ((formed_of_parse h').mono fun _ hm => hm.tiled)
  rw [hfollowing] at hroot hcover
  rw [List.append_nil, hroot, insertTexts_spelling hformed hlength'.ge] at hcover
  rw [countOpen_eq_length_marks hformed] at hlength'
  rw [h', hroot, eq_of_fillTokens_eq htokens hapart hlength' hlength hcover]

/-- Where the filled source is read as string literals for the marks, the marks are
apart, for in its tree no two strings follow one another. -/
theorem apart_of_parse_insertTexts {depth : Nat} {q out : Text} {root : Node}
    {texts : List Text} (h : parse depth q = .ok root)
    (hout : parse depth out = .ok (root.insertTexts texts [])) : Apart root.tokens := by
  have hstrings : (root.insertTexts texts []).tokens.IsChain fun n m =>
      ¬(decide (n.category = .string) = true ∧ decide (m.category = .string) = true) := by
    apply List.isChain_iff_forall_rel_of_append_cons_cons.mpr
    rintro n m ks ms heq ⟨hn, hm⟩
    have htiles := tiles_tokens_of_parse hout
    rw [heq] at htiles
    obtain ⟨middle, _, _, hcover, _⟩ := htiles.split
    have hn' : n.IsToken := isToken_of_parse hout (by rw [heq]; simp)
    have hm' : m.IsToken := isToken_of_parse hout (by rw [heq]; simp)
    obtain ⟨s, hs⟩ := hm'.eq_quoted (by simpa using hm)
    apply hn'.head?_following (by simpa using hn)
    rw [← hcover, hs]
    rfl
  have hmapped := (List.isChain_map (R := fun a b => ¬(a = true ∧ b = true))
    fun n : Node => decide (n.category = .string)).mpr hstrings
  rw [insertTexts_tokens (formed_of_parse h)] at hmapped
  exact (List.isChain_map isDelimited).mp hmapped

/-- Texts that are bound to a query cannot inject anything. Binding texts and timestamps
succeeds, and the bound query is read into the tree of the query with string literals
for its placeholders exactly if neither a quote nor another placeholder touches any of
them. -/
theorem bound_texts_are_literals {depth : Nat} {q : Text} {root : Node}
    (h : parse depth q = .ok root) {values : List Value} {texts : List Text}
    (htexts : values.map Value.text? = texts.map some)
    (hlength : values.length = root.count .placeholderInject) :
    ∃ bound, root.bind values = .ok (bound, values.length) ∧
      (parse depth bound.text = .ok (root.insertTexts texts []) ↔
        ∀ n ∈ root.nodes .placeholderInject, n.StandsAlone q) := by
  have hformed := formed_of_parse h
  have htiles := tiles_tokens_of_parse h
  have htokens : ∀ n ∈ root.tokens, n.IsToken := fun n hn => isToken_of_parse h hn
  have hmarks : root.nodes .placeholderInject = marks root.tokens := nodes_placeholder hformed
  rw [count_placeholders h] at hlength
  have hopen : values.length = root.countOpen .placeholderInject := by
    rw [hlength, countOpen_eq_length_marks hformed]
  have htext : (fillOpen values root).text =
      fillTokens root.tokens (texts.map Text.quoted) := by
    calc
      (fillOpen values root).text = Text.fillMarks false q (values.map Value.literal) :=
        text_fillOpen h values
      _ = Text.fillMarks false q (texts.map Text.quoted) := by
        rw [Value.map_literal_of_text? htexts]
      _ = fillTokens root.tokens (texts.map Text.quoted) :=
        fillMarks_eq_fillTokens htiles htokens _
  have hsame : texts.length = (marks root.tokens).length := by
    rw [← hlength, ← List.length_map some, ← htexts, List.length_map]
  refine ⟨fillOpen values root, (bind_eq_ok hformed.atomicMarks).mpr ⟨hopen, rfl, rfl⟩, ?_⟩
  rw [htext, hmarks, ← apart_iff htiles htokens]
  exact ⟨apart_of_parse_insertTexts h, fun hapart => parse_fillTokens h hapart hsame⟩

theorem bound_texts_are_literals_quote :
    ∃ root, parse 2 "SELECT a FROM t WHERE b = ? AND c='?'".toList = .ok root ∧
      ∃ bound, root.bind [.text "' OR '1'='1".toList] = .ok (bound, 1) ∧
        (parse 2 bound.text = .ok (root.insertTexts ["' OR '1'='1".toList] []) ↔
          ∀ n ∈ root.nodes .placeholderInject,
            n.StandsAlone "SELECT a FROM t WHERE b = ? AND c='?'".toList) := by
  obtain ⟨root, hroot⟩ := exists_tree_of_isOk 2 "SELECT a FROM t WHERE b = ? AND c='?'".toList
    (by decide +kernel)
  have hcount : root.count .placeholderInject = 1 := by
    rw [← countOpen_eq_count _ ((formed_of_parse hroot).mono fun _ hm => hm.unwritten),
      countOpen_placeholders hroot]
    decide +kernel
  exact ⟨root, hroot, bound_texts_are_literals hroot rfl hcount.symm⟩

end QueryTree
