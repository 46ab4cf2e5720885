import QueryTree.Node.Basic

/-!
# Paths

A path leads from the root of a tree to one of its nodes by positions among
children.
-/

namespace QueryTree

/-- Positions among children, from the root on. -/
abbrev Path := List Nat

namespace Node

/-- The node at a path. -/
def at? : Path → Node → Option Node
  | [], n => some n
  | i :: path, n => n.children[i]?.bind (at? path)

/-- Changes the node at a path and leaves the rest of the tree as it is. -/
def modifyAt (f : Node → Node) : Path → Node → Node
  | [], n => f n
  | i :: path, n => { n with children := n.children.modify i (modifyAt f path) }

end Node

end QueryTree
