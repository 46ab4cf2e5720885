import Mathlib.Algebra.GroupWithZero.Nat
import QueryTree.Edit
import QueryTree.Proofs.Tree.Tiling

/-!
# Open nodes

The open nodes of a category, their number and their paths. In a tree that nothing
has been written over, all nodes are open.
-/

namespace QueryTree.Node

variable {c : Category} {n : Node}

theorem countOpenAll_eq_sum (c : Category) (ns : List Node) :
    countOpenAll c ns = (ns.map (countOpen c)).sum := by
  induction ns with
  | nil => rfl
  | cons n ns ih => simp [countOpenAll, ih]

theorem countOpen_of_overwritten (h : n.isOverwritten = true) : n.countOpen c = 0 := by
  obtain ⟨_, _, _, _, _, _, _⟩ := n
  rw [countOpen]
  exact if_pos h

theorem countOpen_of_open (h : n.isOverwritten = false) :
    n.countOpen c = (if n.category = c then 1 else 0) + countOpenAll c n.children := by
  obtain ⟨_, _, _, _, _, _, _⟩ := n
  rw [countOpen]
  exact if_neg (Bool.eq_false_iff.mp h)

theorem openPaths_of_overwritten (h : n.isOverwritten = true) : n.openPaths c = [] := by
  obtain ⟨_, _, _, _, _, _, _⟩ := n
  rw [openPaths]
  exact if_pos h

theorem openPaths_of_open (h : n.isOverwritten = false) :
    n.openPaths c = (if n.category = c then [[]] else []) ++ openPathsFrom c 0 n.children := by
  obtain ⟨_, _, _, _, _, _, _⟩ := n
  rw [openPaths]
  exact if_neg (Bool.eq_false_iff.mp h)

/-- There are as many paths to open nodes as there are open nodes. -/
theorem length_openPaths (c : Category) (n : Node) :
    (n.openPaths c).length = n.countOpen c := by
  induction n using induction_forest
      (fun ns => ∀ i, (openPathsFrom c i ns).length = countOpenAll c ns) with
  | nil i => rfl
  | cons m ns hm ih i =>
      rw [openPathsFrom, countOpenAll, List.length_append, List.length_map, hm, ih (i + 1)]
  | step n ih =>
      cases hn : n.isOverwritten with
      | true => rw [openPaths_of_overwritten hn, countOpen_of_overwritten hn, List.length_nil]
      | false =>
          rw [openPaths_of_open hn, countOpen_of_open hn, List.length_append, ih 0]
          split <;> rfl

/-- An open node is selected by its position among the open paths. -/
theorem select_eq_ok {index : Nat} {path : Path} :
    n.select c index = .ok path ↔ (n.openPaths c)[index]? = some path := by
  rw [select, ← length_openPaths]
  split
  next hnone => simp [List.length_eq_zero_iff.mp hnone]
  next => cases (n.openPaths c)[index]? <;> simp

/-- A position past the open nodes selects none. -/
theorem select_eq_error {index : Nat} (h : n.countOpen c ≤ index) :
    n.select c index = .error (if n.countOpen c = 0 then .noMatch c
      else .indexOutOfRange c index (n.countOpen c)) := by
  rw [select, List.getElem?_eq_none (by rwa [length_openPaths])]
  split <;> rfl

/-- Exactly the positions below the number of open nodes select one. -/
theorem exists_select_iff {index : Nat} :
    (∃ path, n.select c index = .ok path) ↔ index < n.countOpen c := by
  simp only [select_eq_ok, ← Option.isSome_iff_exists, isSome_getElem?, length_openPaths]

/-- The first open node is selected if there is one. -/
theorem select_zero {path : Path} {paths : List Path} (h : n.openPaths c = path :: paths) :
    n.select c 0 = .ok path :=
  select_eq_ok.mpr (by rw [h]; rfl)

/-- In a tree that nothing has been written over, all nodes of a category are open. -/
theorem countOpen_eq_count (c : Category)
    (h : n.Everywhere fun m => m.replacement = none) : n.countOpen c = n.count c := by
  rw [count, nodes_eq_filter]
  induction n using induction_children with
  | step n ih =>
      have hn : n.isOverwritten = false := by simp [isOverwritten, h.self]
      have hchildren : countOpenAll c n.children =
          ((preorderAll n.children).filter fun m => m.category = c).length := by
        rw [countOpenAll_eq_sum, preorderAll_eq_flatMap, List.filter_flatMap,
          List.length_flatMap]
        exact congrArg List.sum (List.map_congr_left fun m hm => ih m hm (h.child hm))
      rw [countOpen_of_open hn, preorder_eq, hchildren]
      by_cases hc : n.category = c
      · rw [if_pos hc, List.filter_cons_of_pos (by simp [hc]), List.length_cons, Nat.add_comm]
      · rw [if_neg hc, List.filter_cons_of_neg (by simp [hc]), Nat.zero_add]

end QueryTree.Node
