import QueryTree.Proofs.Exchange.Tree
import QueryTree.Proofs.Marks.Apart
import QueryTree.Proofs.Marks.Substitution

/-!
# Strings in place of placeholders

The tree of a query with its placeholders replaced by string literals. Apart from
what the nodes cover, nothing else of the tree changes. It is the tree that a query
with strings written over its bind markers is read into, if the query is read at all.
-/

namespace QueryTree

open Grammar

namespace Node

/-- The literal made of the string that stands for a text, in front of a rest. -/
def stringLiteral (s rest : Text) : Node :=
  branch .literal (chain [quotation s rest]) rest

mutual

/-- Replaces the placeholders of a tree, from left to right, by literals that stand
for the given texts. The tree then stands in front of `rest`. -/
def insertTexts (texts : List Text) (rest : Text) : Node → Node
  | ⟨category, spelling, _, prev, next, replacement, children⟩ =>
    if category = .placeholderInject then
      (stringLiteral (texts.headD []) rest).linked prev next
    else if children = [] then ⟨category, spelling, rest, prev, next, replacement, []⟩
    else
      let parts := insertTextsAll texts rest children
      ⟨category, (parts.map Node.spelling).flatten, rest, prev, next, replacement, parts⟩

/-- Replaces the placeholders of a list of trees. Each tree takes the texts that those
before it have left, and stands in front of the trees after it. -/
def insertTextsAll (texts : List Text) (rest : Text) : List Node → List Node
  | [] => []
  | n :: ns =>
    let parts := insertTextsAll (texts.drop (countOpen .placeholderInject n)) rest ns
    insertTexts texts ((parts.map Node.spelling).flatten ++ rest) n :: parts

end

variable {n : Node} {texts : List Text} {rest : Text}

theorem insertTexts_of_mark (hc : n.category = .placeholderInject) :
    n.insertTexts texts rest = (stringLiteral (texts.headD []) rest).linked n.prev n.next := by
  obtain ⟨_, _, _, _, _, _, _⟩ := n
  rw [insertTexts]
  exact if_pos hc

theorem insertTexts_of_leaf (hc : n.category ≠ .placeholderInject) (hn : n.children = []) :
    n.insertTexts texts rest = { n with following := rest } := by
  obtain ⟨_, _, _, _, _, _, _⟩ := n
  simp only at hn
  subst hn
  rw [insertTexts, if_neg hc]
  exact if_pos rfl

theorem insertTexts_of_inner (hc : n.category ≠ .placeholderInject) (hn : n.children ≠ []) :
    n.insertTexts texts rest =
      { n with
        spelling := ((insertTextsAll texts rest n.children).map spelling).flatten
        following := rest
        children := insertTextsAll texts rest n.children } := by
  obtain ⟨_, _, _, _, _, _, _⟩ := n
  rw [insertTexts, if_neg hc]
  exact if_neg hn

/-- A node that is no placeholder keeps its category and its links, and a leaf keeps
what it spells. -/
theorem insertTexts_keeps (hc : n.category ≠ .placeholderInject) :
    (n.insertTexts texts rest).category = n.category ∧
      (n.insertTexts texts rest).prev = n.prev ∧ (n.insertTexts texts rest).next = n.next ∧
      (n.children = [] → (n.insertTexts texts rest).children = [] ∧
        (n.insertTexts texts rest).spelling = n.spelling) := by
  by_cases hn : n.children = []
  · rw [insertTexts_of_leaf hc hn]
    exact ⟨rfl, rfl, rfl, fun h => ⟨h, rfl⟩⟩
  · rw [insertTexts_of_inner hc hn]
    exact ⟨rfl, rfl, rfl, fun h => absurd h hn⟩

theorem insertTextsAll_ne_nil {ns : List Node} (h : ns ≠ []) :
    insertTextsAll texts rest ns ≠ [] := by
  cases ns with
  | nil => exact absurd rfl h
  | cons n ns => simp [insertTextsAll]

theorem Formed.isOverwritten {n : Node} (h : n.Formed) : n.isOverwritten = false := by
  rw [Node.isOverwritten, h.unwritten]
  rfl

theorem Formed.countOpen_mark (h : n.Formed) (hc : n.category = .placeholderInject) :
    n.countOpen .placeholderInject = 1 := by
  rw [countOpen_of_open h.isOverwritten, if_pos hc, h.children_eq_nil (by rw [hc]; rfl),
    countOpenAll]

theorem Formed.countOpen_other (h : n.Formed) (hc : n.category ≠ .placeholderInject) :
    n.countOpen .placeholderInject = countOpenAll .placeholderInject n.children := by
  rw [countOpen_of_open h.isOverwritten, if_neg hc, Nat.zero_add]

/-- Only as many texts are used as there are placeholders. -/
theorem insertTexts_append (hn : n.Everywhere Formed)
    (h : n.countOpen .placeholderInject ≤ texts.length) (more : List Text) :
    n.insertTexts (texts ++ more) rest = n.insertTexts texts rest := by
  have hall : ∀ (ns : List Node) (texts : List Text) (rest : Text),
      (∀ m ∈ ns, ∀ texts rest, m.countOpen .placeholderInject ≤ texts.length →
        m.insertTexts (texts ++ more) rest = m.insertTexts texts rest) →
      countOpenAll .placeholderInject ns ≤ texts.length →
      insertTextsAll (texts ++ more) rest ns = insertTextsAll texts rest ns := by
    intro ns
    induction ns with
    | nil => exact fun _ _ _ _ => rfl
    | cons m ns ih =>
        intro texts rest hns h
        rw [countOpenAll] at h
        have hrest := ih (texts.drop (m.countOpen .placeholderInject)) rest
          (fun k hk => hns k (List.mem_cons_of_mem m hk)) (by rw [List.length_drop]; omega)
        rw [insertTextsAll, insertTextsAll, List.drop_append_of_le_length (by omega), hrest,
          hns m List.mem_cons_self _ _ (by omega)]
  induction n using induction_children generalizing texts rest with
  | step n ih =>
      by_cases hc : n.category = .placeholderInject
      · rw [hn.self.countOpen_mark hc] at h
        obtain ⟨s, texts, rfl⟩ := List.exists_cons_of_length_pos h
        rw [insertTexts_of_mark hc, insertTexts_of_mark hc]
        rfl
      · by_cases hchildren : n.children = []
        · rw [insertTexts_of_leaf hc hchildren, insertTexts_of_leaf hc hchildren]
        · rw [hn.self.countOpen_other hc] at h
          rw [insertTexts_of_inner hc hchildren, insertTexts_of_inner hc hchildren,
            hall n.children texts rest (fun m hm texts rest hm' => ih m hm (hn.child hm) hm') h]

/-- Nothing is inserted into leaves that are no placeholders. -/
theorem map_spelling_insertTextsAll {ns : List Node}
    (h : ∀ m ∈ ns, m.category ≠ .placeholderInject ∧ m.children = []) :
    (insertTextsAll texts rest ns).map spelling = ns.map spelling := by
  induction ns generalizing texts with
  | nil => rfl
  | cons n ns ih =>
      obtain ⟨hc, hn⟩ := h n List.mem_cons_self
      rw [insertTextsAll, List.map_cons, List.map_cons, ((insertTexts_keeps hc).2.2.2 hn).2,
        ih fun m hm => h m (List.mem_cons_of_mem n hm)]

/-- The parts of a string are leaves, and none of them is a placeholder. -/
theorem Formed.string_children (h : n.Everywhere Formed) (hc : n.category = .string) :
    ∀ m ∈ n.children, m.category ≠ .placeholderInject ∧ m.children = [] := by
  intro m hm
  have hin := h.self.child_of_string hc hm
  refine ⟨fun hmark => by simp [hmark, Category.isInString] at hin, ?_⟩
  apply (h.child hm).self.children_eq_nil
  revert hin
  cases m.category <;> decide

theorem spelling_stringLiteral (s rest : Text) :
    (stringLiteral s rest).spelling = Text.quoted s := by
  change [(quotation s rest).spelling].flatten = _
  rw [quotation_spelling]
  simp

/-- What a tree with texts for its placeholders covers. -/
theorem insertTexts_spelling (hn : n.Everywhere Formed)
    (h : n.countOpen .placeholderInject ≤ texts.length) :
    (n.insertTexts texts rest).spelling = fillTokens n.tokens (texts.map Text.quoted) := by
  have hall : ∀ (ns : List Node) (texts : List Text) (rest : Text),
      (∀ m ∈ ns, m.Everywhere Formed) →
      (∀ m ∈ ns, ∀ texts rest, m.countOpen .placeholderInject ≤ texts.length →
        (m.insertTexts texts rest).spelling = fillTokens m.tokens (texts.map Text.quoted)) →
      countOpenAll .placeholderInject ns ≤ texts.length →
      ((insertTextsAll texts rest ns).map spelling).flatten =
        fillTokens (ns.flatMap tokens) (texts.map Text.quoted) := by
    intro ns
    induction ns with
    | nil => exact fun _ _ _ _ _ => rfl
    | cons m ns ih =>
        intro texts rest hformed hns h
        rw [countOpenAll] at h
        have hrest := ih (texts.drop (m.countOpen .placeholderInject)) rest
          (fun k hk => hformed k (List.mem_cons_of_mem m hk))
          (fun k hk => hns k (List.mem_cons_of_mem m hk)) (by rw [List.length_drop]; omega)
        rw [insertTextsAll, List.map_cons, List.flatten_cons, hrest,
          hns m List.mem_cons_self _ _ (by omega), List.flatMap_cons, fillTokens_append,
          List.map_drop, countOpen_eq_length_marks (hformed m List.mem_cons_self)]
  induction n using induction_children generalizing texts rest with
  | step n ih =>
      by_cases hc : n.category = .placeholderInject
      · have hleaf : n.children = [] := hn.atomicMarks.self hc
        rw [hn.self.countOpen_mark hc] at h
        obtain ⟨s, texts, rfl⟩ := List.exists_cons_of_length_pos h
        rw [insertTexts_of_mark hc, tokens_of_whole (Or.inr hleaf), fillTokens, if_pos hc,
          fillTokens, List.append_nil]
        exact spelling_stringLiteral s rest
      · by_cases hchildren : n.children = []
        · rw [insertTexts_of_leaf hc hchildren, tokens_of_whole (Or.inr hchildren), fillTokens,
            if_neg hc, fillTokens, List.append_nil]
        · rw [insertTexts_of_inner hc hchildren]
          by_cases hstring : n.category = .string
          · rw [tokens_of_whole (Or.inl hstring), fillTokens, if_neg hc, fillTokens,
              List.append_nil]
            simp only
            rw [map_spelling_insertTextsAll (Formed.string_children hn hstring),
              hn.self.tiled.spelling_eq hchildren]
          · rw [hn.self.countOpen_other hc] at h
            rw [tokens_of_parts hstring hchildren]
            exact hall n.children texts rest (fun m hm => hn.child hm)
              (fun m hm texts rest hm' => ih m hm (hn.child hm) hm') h

/-- The strings of a tree with texts for its placeholders are where its strings and
its placeholders were. -/
theorem insertTexts_tokens (hn : n.Everywhere Formed) :
    (n.insertTexts texts rest).tokens.map (fun m => decide (m.category = .string)) =
      n.tokens.map isDelimited := by
  have hall : ∀ (ns : List Node) (texts : List Text) (rest : Text),
      (∀ m ∈ ns, ∀ texts rest,
        (m.insertTexts texts rest).tokens.map (fun m => decide (m.category = .string)) =
          m.tokens.map isDelimited) →
      ((insertTextsAll texts rest ns).flatMap tokens).map
          (fun m => decide (m.category = .string)) =
        (ns.flatMap tokens).map isDelimited := by
    intro ns
    induction ns with
    | nil => exact fun _ _ _ => rfl
    | cons m ns ih =>
        intro texts rest hns
        rw [insertTextsAll, List.flatMap_cons, List.map_append, hns m List.mem_cons_self,
          ih _ _ fun k hk => hns k (List.mem_cons_of_mem m hk), List.flatMap_cons,
          List.map_append]
  induction n using induction_children generalizing texts rest with
  | step n ih =>
      by_cases hc : n.category = .placeholderInject
      · have hleaf : n.children = [] := hn.atomicMarks.self hc
        rw [insertTexts_of_mark hc, tokens_of_whole (Or.inr hleaf), List.map_singleton,
          isDelimited_iff.mpr (Or.inr hc)]
        rfl
      · by_cases hwhole : n.category = .string ∨ n.children = []
        · obtain ⟨hcategory, _, _, hleaf⟩ := @insertTexts_keeps n texts rest hc
          have hwhole' := hwhole.imp hcategory.trans fun h => (hleaf h).1
          rw [tokens_of_whole hwhole', tokens_of_whole hwhole, List.map_singleton,
            List.map_singleton, hcategory, isDelimited]
          simp [hc]
        · obtain ⟨hstring, hchildren⟩ := not_or.mp hwhole
          rw [insertTexts_of_inner hc hchildren,
            tokens_of_parts (n := { n with
              spelling := ((insertTextsAll texts rest n.children).map spelling).flatten
              following := rest
              children := insertTextsAll texts rest n.children }) hstring
              (insertTextsAll_ne_nil hchildren),
            tokens_of_parts hstring hchildren]
          exact hall n.children texts rest fun m hm texts rest => ih m hm (hn.child hm)

end Node

end QueryTree
