import QueryTree.Category

/-!
# Nodes

A query tree keeps every character of its source. A node holds the text it
covers and the text that follows it, so its place is known without offsets. The
parts of a production are linked by their positions among the children. An
overwritten node carries a replacement, which stands for everything below it.
-/

namespace QueryTree

/-- A node of a query tree. -/
structure Node where
  category : Category
  /-- The source text that the node covers. -/
  spelling : Text
  /-- The source text after the node. -/
  following : Text
  /-- The position of the part before this one in its production. -/
  prev : Option Nat
  /-- The position of the part after this one in its production. -/
  next : Option Nat
  /-- The text written over the node. -/
  replacement : Option Text
  children : List Node

namespace Node

mutual

/-- The number of nodes of a tree. -/
def size : Node → Nat
  | ⟨_, _, _, _, _, _, children⟩ => 1 + sizeAll children

/-- The number of nodes of a list of trees. -/
def sizeAll : List Node → Nat
  | [] => 0
  | n :: ns => size n + sizeAll ns

end

theorem size_eq (n : Node) : n.size = 1 + sizeAll n.children := by
  obtain ⟨_, _, _, _, _, _, _⟩ := n
  rw [size]

theorem sizeAll_append (ns ms : List Node) :
    sizeAll (ns ++ ms) = sizeAll ns + sizeAll ms := by
  induction ns with
  | nil => simp [sizeAll]
  | cons n ns ih => simp [sizeAll, ih, Nat.add_assoc]

mutual

/-- Equality of nodes is decided field by field, children last. -/
def decEq : (m n : Node) → Decidable (m = n)
  | ⟨c, s, f, p, q, r, children⟩, ⟨c', s', f', p', q', r', children'⟩ =>
    if h : (c = c' ∧ s = s' ∧ f = f') ∧ p = p' ∧ q = q' ∧ r = r' then
      match decEqAll children children' with
      | .isTrue h' => .isTrue (by simp [h, h'])
      | .isFalse h' => .isFalse (by simp [h'])
    else .isFalse (by
      intro same
      injection same with hc hs hf hp hq hr
      exact h ⟨⟨hc, hs, hf⟩, hp, hq, hr⟩)

/-- Equality of lists of nodes. -/
def decEqAll : (ms ns : List Node) → Decidable (ms = ns)
  | [], [] => .isTrue rfl
  | [], _ :: _ => .isFalse (by simp)
  | _ :: _, [] => .isFalse (by simp)
  | m :: ms, n :: ns =>
    match decEq m n with
    | .isFalse h => .isFalse (by simp [h])
    | .isTrue h =>
      match decEqAll ms ns with
      | .isFalse h' => .isFalse (by simp [h'])
      | .isTrue h' => .isTrue (by rw [h, h'])

end

instance : DecidableEq Node := decEq

/-- A node without children. -/
def leaf (category : Category) (spelling following : Text) : Node where
  category := category
  spelling := spelling
  following := following
  prev := none
  next := none
  replacement := none
  children := []

/-- A node made of its children. It covers what they cover. -/
def branch (category : Category) (children : List Node) (following : Text) : Node where
  category := category
  spelling := (children.map spelling).flatten
  following := following
  prev := none
  next := none
  replacement := none
  children := children

/-- Links the parts from position `i` on to their neighbours. -/
def chainFrom (i : Nat) : List Node → List Node
  | [] => []
  | n :: ns =>
    { n with
      prev := if i = 0 then none else some (i - 1)
      next := if ns.isEmpty then none else some (i + 1) } :: chainFrom (i + 1) ns

/-- The parts of a production, each linked to its neighbours. -/
def chain (parts : List Node) : List Node :=
  chainFrom 0 parts

/-- Linking leaves all else that is told of the parts as it is. -/
theorem map_chainFrom {α : Type} {f : Node → α}
    (h : ∀ (n : Node) (p q : Option Nat), f { n with prev := p, next := q } = f n)
    (i : Nat) (parts : List Node) : (chainFrom i parts).map f = parts.map f := by
  induction parts generalizing i with
  | nil => rfl
  | cons n ns ih => rw [chainFrom, List.map_cons, h, ih, List.map_cons]

theorem map_chain {α : Type} {f : Node → α}
    (h : ∀ (n : Node) (p q : Option Nat), f { n with prev := p, next := q } = f n)
    (parts : List Node) : (chain parts).map f = parts.map f :=
  map_chainFrom h 0 parts

/-- Linking leaves what the parts cover as it is. -/
theorem map_spelling_chain (parts : List Node) :
    (chain parts).map spelling = parts.map spelling :=
  map_chain (fun _ _ _ => rfl) parts

@[simp] theorem length_chainFrom (i : Nat) (parts : List Node) :
    (chainFrom i parts).length = parts.length := by
  induction parts generalizing i with
  | nil => rfl
  | cons n ns ih => simp [chainFrom, ih]

@[simp] theorem length_chain (parts : List Node) : (chain parts).length = parts.length :=
  length_chainFrom 0 parts

/-- Whether the node has been overwritten. -/
def isOverwritten (n : Node) : Bool :=
  n.replacement.isSome

/-- Whether the node has no children. -/
def isLeaf (n : Node) : Bool :=
  n.children.isEmpty

mutual

/-- Whether the node or a node below it has been overwritten. -/
def holdsReplacement : Node → Bool
  | ⟨_, _, _, _, _, replacement, children⟩ => replacement.isSome || anyHoldsReplacement children

/-- Whether one of the nodes or a node below it has been overwritten. -/
def anyHoldsReplacement : List Node → Bool
  | [] => false
  | n :: ns => holdsReplacement n || anyHoldsReplacement ns

end

mutual

/-- The text of a tree read off its topmost replacements and its leaves. -/
def fold : Node → Text
  | ⟨_, spelling, _, _, _, replacement, children⟩ =>
    match replacement with
    | some text => text
    | none =>
      match children with
      | [] => spelling
      | n :: ns => fold n ++ foldAll ns

/-- The texts of a list of trees, joined. -/
def foldAll : List Node → Text
  | [] => []
  | n :: ns => fold n ++ foldAll ns

end

/-- The current text of a node. Without a replacement it is the source text. -/
def text (n : Node) : Text :=
  if n.holdsReplacement then n.fold else n.spelling

theorem foldAll_eq (ns : List Node) : foldAll ns = (ns.map fold).flatten := by
  induction ns with
  | nil => rfl
  | cons n ns ih => simp [foldAll, ih]

theorem fold_of_replacement {n : Node} {text : Text} (h : n.replacement = some text) :
    n.fold = text := by
  obtain ⟨_, _, _, _, _, _, _⟩ := n
  simp only at h
  subst h
  rw [fold]

theorem fold_of_isLeaf {n : Node} (h : n.replacement = none) (leaf : n.children = []) :
    n.fold = n.spelling := by
  obtain ⟨_, _, _, _, _, _, _⟩ := n
  simp only at h leaf
  subst h leaf
  rw [fold]

theorem fold_of_children {n : Node} (h : n.replacement = none) (inner : n.children ≠ []) :
    n.fold = (n.children.map fold).flatten := by
  obtain ⟨_, _, _, _, _, _, children⟩ := n
  simp only at h inner
  subst h
  cases children with
  | nil => exact absurd rfl inner
  | cons n ns => simp [fold, foldAll_eq]

/-- The child that the link of the child at position `i` points to, forwards. -/
def nextInOrder (n : Node) (i : Nat) : Option Node := do
  let child ← n.children[i]?
  let j ← child.next
  n.children[j]?

/-- The child that the link of the child at position `i` points to, backwards. -/
def prevInOrder (n : Node) (i : Nat) : Option Node := do
  let child ← n.children[i]?
  let j ← child.prev
  n.children[j]?

/-- Follows the forward links from position `i`, for at most `steps` parts. -/
def follow (children : List Node) : Nat → Nat → List Node
  | 0, _ => []
  | steps + 1, i =>
    match children[i]? with
    | none => []
    | some child =>
      match child.next with
      | none => [child]
      | some j => child :: follow children steps j

/-- The parts of the production of `n` from position `i` on, by the forward links. -/
def sequence (n : Node) (i : Nat) : List Node :=
  follow n.children n.children.length i

/-- The first child of a category. -/
def child? (n : Node) (c : Category) : Option Node :=
  n.children.find? fun m => m.category = c

end Node

end QueryTree
