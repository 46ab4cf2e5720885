import QueryTree.JsonValue
import QueryTree.Node.Basic

/-!
# Outlines

The outline of a tree as JSON. Every node becomes an object with its category and
its current text, with its children if it has any, and with a mark if it has been
overwritten. The members are in alphabetical order.
-/

namespace QueryTree.Node

mutual

/-- The outline of a tree. -/
def outline : Node → JsonValue
  | ⟨category, spelling, following, prev, next, replacement, children⟩ =>
    let n : Node := ⟨category, spelling, following, prev, next, replacement, children⟩
    .object (("category".toList, .string category.name.toList) ::
      (if children.isEmpty then [] else [("children".toList, .array (outlineAll children))]) ++
      (if replacement.isSome then [("rewritten".toList, .boolean true)] else []) ++
      [("text".toList, .string n.text)])

/-- The outlines of a list of trees. -/
def outlineAll : List Node → List JsonValue
  | [] => []
  | n :: ns => outline n :: outlineAll ns

end

end QueryTree.Node
