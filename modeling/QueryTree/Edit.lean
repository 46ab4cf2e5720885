import QueryTree.Node.Path
import QueryTree.Value.Basic

/-!
# Edits

Edits write over nodes that they select by category. A node is open to an edit as
long as neither it nor a node above it has been overwritten, and the open nodes of a
category are counted from zero in document order, afresh for every edit. An edit
that cannot be made leaves the tree as it is.
-/

namespace QueryTree

/-- Why an edit cannot be made. -/
inductive EditError where
  /-- No open node of the category is left. -/
  | noMatch (category : Category)
  /-- There are too few open nodes of the category. -/
  | indexOutOfRange (category : Category) (index available : Nat)
  | tooFewValues (expected supplied : Nat)
  | tooManyValues (expected supplied : Nat)
deriving DecidableEq, Repr

namespace EditError

/-- The wording of the error. -/
def message : EditError → Text
  | noMatch c => "no ".toList ++ c.name.toList ++ " left to rewrite".toList
  | indexOutOfRange c index available =>
    "index ".toList ++ Text.ofNat index ++ " out of range: only ".toList ++
      Text.ofNat available ++ " ".toList ++ c.name.toList ++ " left to rewrite".toList
  | tooFewValues expected supplied =>
    Text.ofNat expected ++ " placeholder(s) to bind but only ".toList ++ Text.ofNat supplied ++
      " value(s) supplied".toList
  | tooManyValues expected supplied =>
    Text.ofNat supplied ++ " value(s) supplied for only ".toList ++ Text.ofNat expected ++
      " placeholder(s)".toList

end EditError

namespace Node

mutual

/-- The number of open nodes of a category. -/
def countOpen (c : Category) : Node → Nat
  | ⟨category, _, _, _, _, replacement, children⟩ =>
    if replacement.isSome then 0
    else (if category = c then 1 else 0) + countOpenAll c children

/-- The number of open nodes of a category in a list of trees. -/
def countOpenAll (c : Category) : List Node → Nat
  | [] => 0
  | n :: ns => countOpen c n + countOpenAll c ns

end

mutual

/-- The paths of the open nodes of a category, in document order. -/
def openPaths (c : Category) : Node → List Path
  | ⟨category, _, _, _, _, replacement, children⟩ =>
    if replacement.isSome then []
    else (if category = c then [[]] else []) ++ openPathsFrom c 0 children

/-- The paths of the open nodes of a category in the children from position `i` on. -/
def openPathsFrom (c : Category) (i : Nat) : List Node → List Path
  | [] => []
  | n :: ns => (openPaths c n).map (fun path => i :: path) ++ openPathsFrom c (i + 1) ns

end

/-- The path of the open node of a category at a position. -/
def select (c : Category) (index : Nat) (root : Node) : Except EditError Path :=
  if root.countOpen c = 0 then .error (.noMatch c)
  else match (root.openPaths c)[index]? with
    | some path => .ok path
    | none => .error (.indexOutOfRange c index (root.countOpen c))

/-- Writes a text over a node. -/
def overwrite (text : Text) (n : Node) : Node :=
  { n with replacement := some text }

/-- Writes the literal of a value over a node, which becomes a literal. -/
def overwriteWithLiteral (value : Value) (n : Node) : Node :=
  { n with category := .literal, replacement := some value.literal }

/-- Replaces the open node of a category at a position by a value. -/
def replace (c : Category) (value : Value) (index : Nat) (root : Node) :
    Except EditError Node :=
  (root.select c index).map fun path => root.modifyAt (overwriteWithLiteral value) path

/-- A change to the text of a node that may depend on the calls before it. -/
abbrev Mutator (σ : Type) := σ → Text → Text × σ

/-- Changes the text of the open node of a category at a position. The node keeps
its category. -/
def replaceWith {σ : Type} (c : Category) (index : Nat) (mutator : Mutator σ) (s : σ)
    (root : Node) : Except EditError (Node × σ) := do
  let path ← root.select c index
  let current := ((root.at? path).map text).getD []
  let (changed, s) := mutator s current
  return (root.modifyAt (overwrite changed) path, s)

mutual

/-- Changes the texts of the outermost open nodes of a category, in document order,
and counts them. -/
def overwriteOutermost {σ : Type} (c : Category) (mutator : Mutator σ) :
    Node → σ → Node × Nat × σ
  | ⟨category, spelling, following, prev, next, replacement, children⟩, s =>
    let n : Node := ⟨category, spelling, following, prev, next, replacement, children⟩
    if replacement.isSome then (n, 0, s)
    else if category = c then
      let (changed, s) := mutator s n.text
      (n.overwrite changed, 1, s)
    else
      let (children, count, s) := overwriteOutermostAll c mutator children s
      ({ n with children := children }, count, s)

/-- Changes the texts of the outermost open nodes of a category in a list of trees. -/
def overwriteOutermostAll {σ : Type} (c : Category) (mutator : Mutator σ) :
    List Node → σ → List Node × Nat × σ
  | [], s => ([], 0, s)
  | n :: ns, s =>
    let (n, k, s) := overwriteOutermost c mutator n s
    let (ns, l, s) := overwriteOutermostAll c mutator ns s
    (n :: ns, k + l, s)

end

/-- Changes the texts of all open nodes of a category. A node inside one that is
changed is left alone. The answer has the number of changes. -/
def replaceAll {σ : Type} (c : Category) (mutator : Mutator σ) (s : σ) (root : Node) :
    Except EditError (Node × Nat × σ) :=
  let (changed, count, s) := overwriteOutermost c mutator root s
  if count = 0 then .error (.noMatch c) else .ok (changed, count, s)

/-- Replaces the first open placeholder by each of the values in turn. -/
def bindEach : List Value → Node → Except EditError Node
  | [], root => .ok root
  | value :: values, root => do
    bindEach values (← root.replace .placeholderInject value 0)

/-- Binds values to the open placeholders in document order, and says how many.
There have to be as many values as placeholders. -/
def bind (values : List Value) (root : Node) : Except EditError (Node × Nat) :=
  let expected := root.countOpen .placeholderInject
  if values.length < expected then .error (.tooFewValues expected values.length)
  else if expected < values.length then .error (.tooManyValues expected values.length)
  else (bindEach values root).map fun bound => (bound, expected)

end Node

end QueryTree
