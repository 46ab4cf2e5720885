import QueryTree.Proofs.Derivation.Statement

/-!
# The tree of a source

Two facts about every source that is read. The tree loses nothing: its nodes cover
the source without gaps, and its leaves spell it. The tree is a derivation of the
grammar: the children of every node are a sequence of parts of its category.
-/

namespace QueryTree

open Node

/-- The tree of a source is lossless. The root covers the source and reads as the
source, every node denotes one piece of it, the children of a node cover the node one
after the other, and the leaves spell the source from left to right. -/
theorem parse_lossless {depth : Nat} {q : Text} {root : Node} (h : parse depth q = .ok root) :
    root.spelling = q ∧ root.following = [] ∧ root.text = q ∧
      (∀ n ∈ root.preorder, n.spelling ≠ [] ∧ n.spelling ++ n.following <:+ q ∧
        (n.children ≠ [] →
          Tiles (n.spelling ++ n.following) n.children n.following ∧
            n.spelling = (n.children.map spelling).flatten)) ∧
      (root.leaves.map spelling).flatten = q := by
  obtain ⟨hcover, hfollowing⟩ := tiles_singleton.mp (derives_of_parse h).tiles
  have hformed := formed_of_parse h
  have htiled : root.Everywhere Tiled := hformed.mono fun _ hm => hm.tiled
  have hspelling : root.spelling = q := by
    rw [← hcover, hfollowing, List.append_nil]
  have htext : root.text = q :=
    (text_eq_spelling (hformed.mono fun _ hm => hm.unwritten)).trans hspelling
  refine ⟨hspelling, hfollowing, htext, ?_, htiled.flatten_leaves.trans hspelling⟩
  intro n hn
  have hsuffix := htiled.suffix_of_mem hn
  rw [hcover] at hsuffix
  exact ⟨(hformed n hn).nonempty, hsuffix,
    fun hchildren => ⟨htiled n hn hchildren, (htiled n hn).spelling_eq hchildren⟩⟩

theorem parse_lossless_escaped_quote :
    ∃ root, parse 2 "SELECT [1, 'x''y'] ;".toList = .ok root ∧
      (root.leaves.map spelling).flatten = "SELECT [1, 'x''y'] ;".toList := by
  obtain ⟨root, hroot⟩ := exists_tree_of_isOk 2 "SELECT [1, 'x''y'] ;".toList
    (by decide +kernel)
  exact ⟨root, hroot, (parse_lossless hroot).2.2.2.2⟩

/-- The tree of a source is a derivation: the root is a statement, and the children of
every node are a sequence of parts of its category. -/
theorem parse_is_derivation {depth : Nat} {q : Text} {root : Node}
    (h : parse depth q = .ok root) :
    root.category = .statement ∧
      ∀ n ∈ root.preorder, n.children.map label ∈ n.category.parts :=
  ⟨Phrase.label_mem_part.mp (derives_of_parse h).labels, fun n hn => (formed_of_parse h n hn).parts⟩

theorem parse_is_derivation_condition :
    ∃ root, parse 1 "USE t WHERE a=?AND b <= 'x'".toList = .ok root ∧
      root.category = .statement ∧
        ∀ n ∈ root.preorder, n.children.map label ∈ n.category.parts := by
  obtain ⟨root, hroot⟩ := exists_tree_of_isOk 1
    "USE t WHERE a=?AND b <= 'x'".toList (by decide +kernel)
  exact ⟨root, hroot, parse_is_derivation hroot⟩

end QueryTree
