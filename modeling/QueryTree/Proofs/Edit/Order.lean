import QueryTree.Proofs.Edit.Selection

/-!
# Open nodes in document order

The paths of the open nodes of a category are listed in document order: a node comes before
the nodes below it, and these come before the nodes to its right. A search that counts down
on its way through the tree selects the same node as a look into this list. In a tree that
nothing has been written over, the list leads to all nodes of the category in the order of
a walk.
-/

namespace QueryTree

/-- Document order: the first path ends above the second, or turns off to the left of it. -/
abbrev Path.Precedes : Path → Path → Prop :=
  List.Lex (· < ·)

namespace Node

variable {c : Category} {n : Node}

/-- The open paths are listed in document order. -/
theorem openPaths_pairwise (c : Category) (n : Node) :
    (n.openPaths c).Pairwise Path.Precedes := by
  induction n using induction_forest
      (fun ns => ∀ i, (openPathsFrom c i ns).Pairwise Path.Precedes) with
  | nil i => exact .nil
  | cons m ns hm ih i =>
      rw [openPathsFrom, List.pairwise_append, List.pairwise_map]
      refine ⟨hm.imp .cons, ih (i + 1), ?_⟩
      intro path hpath later hlater
      obtain ⟨inner, _, rfl⟩ := List.mem_map.mp hpath
      obtain ⟨j, _, _, _, _, rfl⟩ := mem_openPathsFrom.mp hlater
      exact .rel (by omega)
  | step n ih =>
      cases hn : n.isOverwritten with
      | true =>
          rw [openPaths_of_overwritten hn]
          exact .nil
      | false =>
          rw [openPaths_of_open hn, List.pairwise_append]
          refine ⟨?_, ih 0, ?_⟩
          · split
            · exact List.pairwise_singleton _ _
            · exact .nil
          · intro path hpath later hlater
            obtain ⟨_, _, _, _, _, rfl⟩ := mem_openPathsFrom.mp hlater
            split at hpath
            · obtain rfl := List.mem_singleton.mp hpath
              exact .nil
            · cases hpath

section Search

mutual

/-- Searches a tree for the open node of a category after `skip` others. The answer is its
path, or the number of nodes that are still to be skipped. -/
def seek (c : Category) : Node → Nat → Path ⊕ Nat
  | ⟨category, _, _, _, _, replacement, children⟩, skip =>
    if replacement.isSome then .inr skip
    else if category = c then
      match skip with
      | 0 => .inl []
      | skip + 1 => seekFrom c 0 children skip
    else seekFrom c 0 children skip

/-- Searches the children from position `i` on, one after the other. -/
def seekFrom (c : Category) (i : Nat) : List Node → Nat → Path ⊕ Nat
  | [], skip => .inr skip
  | n :: ns, skip =>
    match seek c n skip with
    | .inl path => .inl (i :: path)
    | .inr skip => seekFrom c (i + 1) ns skip

end

/-- The path at a position of a list, or by how much the position is past its end. -/
def pathOrRest (paths : List Path) (skip : Nat) : Path ⊕ Nat :=
  match paths[skip]? with
  | some path => .inl path
  | none => .inr (skip - paths.length)

theorem pathOrRest_append (paths more : List Path) (skip : Nat) :
    pathOrRest (paths ++ more) skip =
      match pathOrRest paths skip with
      | .inl path => .inl path
      | .inr skip => pathOrRest more skip := by
  unfold pathOrRest
  by_cases h : skip < paths.length
  · rw [List.getElem?_append_left h, List.getElem?_eq_getElem h]
  · rw [List.getElem?_append_right (Nat.le_of_not_lt h), List.getElem?_eq_none (Nat.le_of_not_lt h)]
    simp only [List.length_append]
    split
    next => rfl
    next =>
      simp only [Sum.inr.injEq]
      omega

theorem pathOrRest_map (i : Nat) (paths : List Path) (skip : Nat) :
    pathOrRest (paths.map fun path => i :: path) skip =
      match pathOrRest paths skip with
      | .inl path => .inl (i :: path)
      | .inr skip => .inr skip := by
  unfold pathOrRest
  rw [List.getElem?_map, List.length_map]
  cases paths[skip]? <;> rfl

/-- The search with a count of the nodes to skip finds the node at a position in document
order, and otherwise has skipped all open nodes. -/
theorem seek_eq (c : Category) (n : Node) (skip : Nat) :
    n.seek c skip = pathOrRest (n.openPaths c) skip := by
  induction n using induction_forest
      (fun ns => ∀ i skip, seekFrom c i ns skip = pathOrRest (openPathsFrom c i ns) skip)
      generalizing skip with
  | nil i skip => rfl
  | cons m ns hm ih i skip =>
      rw [seekFrom, hm, openPathsFrom, pathOrRest_append, pathOrRest_map]
      cases pathOrRest (m.openPaths c) skip with
      | inl path => rfl
      | inr skip => exact ih (i + 1) skip
  | step n ih =>
      obtain ⟨category, _, _, _, _, replacement, children⟩ := n
      unfold seek openPaths
      by_cases hn : replacement.isSome = true
      · rw [if_pos hn, if_pos hn]
        rfl
      · rw [if_neg hn, if_neg hn, pathOrRest_append]
        by_cases hc : category = c
        · rw [if_pos hc, if_pos hc]
          cases skip with
          | zero => rfl
          | succ skip => exact ih 0 skip
        · rw [if_neg hc, if_neg hc]
          exact ih 0 skip

end Search

/-- In a tree that nothing has been written over, the open paths of a category lead to all
nodes of the category, in the order of a walk. -/
theorem map_at?_openPaths (c : Category) (h : n.Everywhere fun m => m.replacement = none) :
    (n.openPaths c).map (at? · n) = (n.nodes c).map some := by
  induction n using induction_forest (fun ns => ∀ (i : Nat) (f : Path → Option Node),
      (∀ m ∈ ns, m.Everywhere fun m => m.replacement = none) →
      (∀ j m, ns[j]? = some m → ∀ path, f ((i + j) :: path) = m.at? path) →
        (openPathsFrom c i ns).map f =
          ((preorderAll ns).filter fun m => m.category = c).map some) with
  | nil i f hns hf => rfl
  | cons m ns hm ih i f hns hf =>
      have hfirst : ((m.openPaths c).map fun path => i :: path).map f =
          (m.nodes c).map some := by
        rw [← hm (hns m List.mem_cons_self), List.map_map]
        exact List.map_congr_left fun path _ => hf 0 m rfl path
      have hrest := ih (i + 1) f (fun k hk => hns k (List.mem_cons_of_mem m hk))
        fun j k hk path => by
          rw [Nat.add_assoc, Nat.add_comm 1 j]
          exact hf (j + 1) k hk path
      rw [openPathsFrom, List.map_append, hfirst, hrest, preorderAll, List.filter_append,
        List.map_append, nodes_eq_filter]
  | step n ih =>
      have hn : n.isOverwritten = false := by simp [isOverwritten, h.self]
      have hchildren := ih 0 (at? · n) (fun m hm => h.child hm) fun j m hm path => by
        rw [Nat.zero_add, at?_cons, hm, Option.bind_some]
      rw [openPaths_of_open hn, List.map_append, hchildren, nodes_eq_filter, preorder_eq]
      by_cases hc : n.category = c
      · rw [if_pos hc, List.filter_cons_of_pos (by simp [hc])]
        rfl
      · rw [if_neg hc, List.filter_cons_of_neg (by simp [hc])]
        rfl

end Node

end QueryTree
