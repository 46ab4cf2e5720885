import QueryTree.Proofs.Tree.Preorder

/-!
# Walks, step by step

A walk through a tree keeps the nodes that it has still to visit, the next one last. A step
takes this node off and puts its children in its place, the first child last. Whatever the
nodes that are kept, what is left to visit are they and the nodes below them, each node
before its children and the last of the kept nodes first. So the steps of a walk come to an
end, and a search that stops on the way finds what it would find among all nodes.
-/

namespace QueryTree

open Node

/-- A walk on its way. -/
structure Walk where
  /-- The nodes to visit, each with all nodes below it, the next one last. -/
  stack : Array Node

namespace Walk

/-- The walk through a tree before its first step. -/
def through (root : Node) : Walk where
  stack := #[root]

/-- One step of a walk: the node that it visits, and the walk after it. -/
def next? (w : Walk) : Option (Node × Walk) :=
  w.stack.back?.map fun n => (n, ⟨w.stack.pop ++ n.children.reverse⟩)

/-- Whether a walk visits some nodes in turn and is then at the place of another walk. -/
inductive Visits : Walk → List Node → Walk → Prop
  | rest (w : Walk) : Visits w [] w
  | step {w w' w'' : Walk} {n : Node} {ns : List Node} (h : w.next? = some (n, w'))
      (tail : Visits w' ns w'') : Visits w (n :: ns) w''

/-- The nodes that a walk has still to visit, in the order of the visits. -/
def remaining (w : Walk) : List Node :=
  preorderAll w.stack.toList.reverse

variable {w w' : Walk} {n : Node} {ns : List Node}

@[simp] theorem remaining_through (root : Node) : (through root).remaining = root.preorder := by
  simp [remaining, through, preorderAll]

/-- A step visits the first of the remaining nodes and leaves the others. -/
theorem remaining_of_next? (h : w.next? = some (n, w')) :
    w.remaining = n :: w'.remaining := by
  obtain ⟨m, hlast, hstep⟩ := Option.map_eq_some_iff.mp h
  obtain ⟨rfl, rfl⟩ := Prod.mk.inj hstep
  obtain ⟨others, hstack⟩ := Array.back?_eq_some_iff.mp hlast
  calc
    w.remaining = preorderAll (m :: others.toList.reverse) := by simp [remaining, hstack]
    _ = m :: preorderAll (m.children ++ others.toList.reverse) := by
      rw [preorderAll, preorder_eq, List.cons_append, preorderAll_append]
    _ = _ := by simp [remaining, hstack]

/-- A walk has no next step exactly if nothing remains to be visited. -/
theorem next?_eq_none : w.next? = none ↔ w.remaining = [] := by
  constructor
  · intro h
    have hstack := Array.back?_eq_none_iff.mp (Option.map_eq_none_iff.mp h)
    simp [remaining, hstack, preorderAll]
  · intro h
    cases hnext : w.next? with
    | none => rfl
    | some step =>
        rw [remaining_of_next? hnext] at h
        cases h

/-- What a walk has visited and what remains is what remained at first. -/
theorem Visits.remaining_eq (h : w.Visits ns w') : w.remaining = ns ++ w'.remaining := by
  induction h with
  | rest w => rfl
  | step hnext tail ih => rw [remaining_of_next? hnext, ih, List.cons_append]

/-- Every walk comes to an end after it has visited what remains. -/
theorem exists_visits_remaining (w : Walk) :
    ∃ w', w.Visits w.remaining w' ∧ w'.next? = none := by
  -- A step may lengthen the stack, so the induction is on what remains.
  generalize hns : w.remaining = ns
  induction ns generalizing w with
  | nil => exact ⟨w, .rest w, next?_eq_none.mpr hns⟩
  | cons n ns ih =>
      cases hnext : w.next? with
      | none =>
          rw [next?_eq_none.mp hnext] at hns
          cases hns
      | some step =>
          obtain ⟨m, w₁⟩ := step
          rw [remaining_of_next? hnext] at hns
          obtain ⟨rfl, htail⟩ := List.cons.inj hns
          obtain ⟨w', hvisits, hend⟩ := ih w₁ htail
          exact ⟨w', .step hnext hvisits, hend⟩

/-- A walk that is at its end has visited what remained at first, and nothing else. -/
theorem exists_visits_iff : (∃ w', w.Visits ns w' ∧ w'.next? = none) ↔ ns = w.remaining := by
  constructor
  · rintro ⟨w', hvisits, hend⟩
    rw [hvisits.remaining_eq, next?_eq_none.mp hend, List.append_nil]
  · rintro rfl
    exact exists_visits_remaining w

/-- Goes on with a walk up to the node of a category after `skip` others, and no further. -/
def search (c : Category) (skip : Nat) (w : Walk) : Option Node :=
  match _hnext : w.next? with
  | none => none
  | some (n, w') =>
    if n.category = c then
      match skip with
      | 0 => some n
      | skip + 1 => search c skip w'
    else search c skip w'
termination_by w.remaining.length
decreasing_by all_goals simp [remaining_of_next? _hnext]

/-- A search finds the node at its position among the remaining nodes of the category. -/
theorem search_eq (c : Category) (skip : Nat) (w : Walk) :
    w.search c skip = (w.remaining.filter fun n => n.category = c)[skip]? := by
  generalize hns : w.remaining = ns
  induction ns generalizing w skip with
  | nil =>
      rw [search]
      split
      next => rfl
      next n w' hnext =>
        rw [remaining_of_next? hnext] at hns
        cases hns
  | cons n ns ih =>
      rw [search]
      split
      next hnext =>
        rw [next?_eq_none.mp hnext] at hns
        cases hns
      next m w' hnext =>
        rw [remaining_of_next? hnext] at hns
        obtain ⟨rfl, htail⟩ := List.cons.inj hns
        by_cases hc : m.category = c
        · rw [if_pos hc, List.filter_cons_of_pos (by simp [hc])]
          cases skip with
          | zero => rfl
          | succ skip => exact ih skip w' htail
        · rw [if_neg hc, List.filter_cons_of_neg (by simp [hc])]
          exact ih skip w' htail

end Walk

end QueryTree
