import QueryTree.Node.Basic

/-!
# Walking a tree

The nodes of a tree in document order, a node before its children. `preorder`
gives them by recursion and `walk` by a stack of the nodes still to visit.
Searches by category go through `walk`.
-/

namespace QueryTree.Node

mutual

/-- A node and all nodes below it, each before its own children. -/
def preorder : Node → List Node
  | ⟨c, s, f, p, q, r, children⟩ => ⟨c, s, f, p, q, r, children⟩ :: preorderAll children

/-- The nodes of a list of trees, tree after tree. -/
def preorderAll : List Node → List Node
  | [] => []
  | n :: ns => preorder n ++ preorderAll ns

end

/-- Visits the nodes of a stack. The children of a visited node go on top of it. -/
def walk : List Node → List Node
  | [] => []
  | n :: stack => n :: walk (n.children ++ stack)
termination_by stack => sizeAll stack
decreasing_by
  rw [sizeAll_append, sizeAll, size_eq]
  omega

/-- The node and its descendants in document order. -/
def descendants (n : Node) : List Node :=
  walk [n]

/-- The nodes of a category in document order. -/
def nodes (c : Category) (n : Node) : List Node :=
  n.descendants.filter fun m => m.category = c

/-- The number of nodes of a category. -/
def count (c : Category) (n : Node) : Nat :=
  (nodes c n).length

/-- The node of a category at a position, counted from zero in document order. -/
def find? (c : Category) (i : Nat) (n : Node) : Option Node :=
  (nodes c n)[i]?

end QueryTree.Node
