import QueryTree.Node.Walk

/-!
# Nodes in document order

The nodes of a tree are reached by induction over the children, and the walk
over a stack visits exactly the nodes that the recursion lists. A property of
all nodes of a tree is a property of the root together with the same property of
each child.
-/

namespace QueryTree.Node

/-- A property that passes from the children of a node to the node holds of every
node. -/
@[elab_as_elim]
theorem induction_children {motive : Node → Prop}
    (step : ∀ n : Node, (∀ m ∈ n.children, motive m) → motive n) (n : Node) :
    motive n :=
  Node.rec (motive_1 := motive) (motive_2 := fun ns => ∀ m ∈ ns, motive m)
    (fun c s f p q r children ih => step ⟨c, s, f, p, q, r, children⟩ ih)
    (by simp)
    (fun n ns hn hns => List.forall_mem_cons.mpr ⟨hn, hns⟩) n

/-- As `induction_children`, with a property of the list of the children that is shown child
by child. -/
@[elab_as_elim]
theorem induction_forest (forest : List Node → Prop) {motive : Node → Prop}
    (nil : forest [])
    (cons : ∀ n ns, motive n → forest ns → forest (n :: ns))
    (step : ∀ n : Node, forest n.children → motive n) (n : Node) : motive n :=
  Node.rec (motive_1 := motive) (motive_2 := forest)
    (fun c s f p q r children ih => step ⟨c, s, f, p, q, r, children⟩ ih) nil cons n

theorem preorderAll_eq_flatMap (ns : List Node) :
    preorderAll ns = ns.flatMap preorder := by
  induction ns with
  | nil => rfl
  | cons n ns ih => simp [preorderAll, ih]

theorem preorderAll_append (ns ms : List Node) :
    preorderAll (ns ++ ms) = preorderAll ns ++ preorderAll ms := by
  simp [preorderAll_eq_flatMap]

theorem preorder_eq (n : Node) : n.preorder = n :: preorderAll n.children := by
  obtain ⟨_, _, _, _, _, _, _⟩ := n
  rw [preorder]

theorem mem_preorder_iff {m n : Node} :
    m ∈ n.preorder ↔ m = n ∨ ∃ k ∈ n.children, m ∈ k.preorder := by
  rw [preorder_eq, List.mem_cons, preorderAll_eq_flatMap, List.mem_flatMap]

theorem self_mem_preorder (n : Node) : n ∈ n.preorder :=
  mem_preorder_iff.mpr (Or.inl rfl)

/-- The walk lists the trees of its stack one after the other. -/
theorem walk_eq_preorderAll (stack : List Node) : walk stack = preorderAll stack := by
  fun_induction walk stack with
  | case1 => rfl
  | case2 n stack ih => rw [ih, preorderAll_append, preorderAll, preorder_eq, List.cons_append]

theorem descendants_eq_preorder (n : Node) : n.descendants = n.preorder := by
  rw [descendants, walk_eq_preorderAll, preorderAll, preorderAll, List.append_nil]

theorem nodes_eq_filter (c : Category) (n : Node) :
    n.nodes c = n.preorder.filter fun m => m.category = c := by
  rw [nodes, descendants_eq_preorder]

/-- Whether a property holds of the node and of all nodes below it. -/
def Everywhere (P : Node → Prop) (n : Node) : Prop :=
  ∀ m ∈ n.preorder, P m

theorem everywhere_iff {P : Node → Prop} {n : Node} :
    n.Everywhere P ↔ P n ∧ ∀ m ∈ n.children, m.Everywhere P := by
  constructor
  · intro h
    exact ⟨h n n.self_mem_preorder,
      fun m hm k hk => h k (mem_preorder_iff.mpr (Or.inr ⟨m, hm, hk⟩))⟩
  · rintro ⟨hn, hchildren⟩ m hm
    rcases mem_preorder_iff.mp hm with rfl | ⟨k, hk, hmk⟩
    · exact hn
    · exact hchildren k hk m hmk

theorem Everywhere.self {P : Node → Prop} {n : Node} (h : n.Everywhere P) : P n :=
  (everywhere_iff.mp h).1

theorem Everywhere.child {P : Node → Prop} {n m : Node} (h : n.Everywhere P)
    (hm : m ∈ n.children) : m.Everywhere P :=
  (everywhere_iff.mp h).2 m hm

theorem preorder_trans {k m n : Node} (hk : k ∈ m.preorder) (hm : m ∈ n.preorder) :
    k ∈ n.preorder := by
  induction n using induction_children with
  | step n ih =>
      rcases mem_preorder_iff.mp hm with rfl | ⟨l, hl, hml⟩
      · exact hk
      · exact mem_preorder_iff.mpr (Or.inr ⟨l, hl, ih l hl hml⟩)

theorem Everywhere.of_mem {P : Node → Prop} {m n : Node} (h : n.Everywhere P)
    (hm : m ∈ n.preorder) : m.Everywhere P :=
  fun k hk => h k (preorder_trans hk hm)

theorem Everywhere.mono {P Q : Node → Prop} {n : Node} (h : n.Everywhere P)
    (hPQ : ∀ m, P m → Q m) : n.Everywhere Q :=
  fun m hm => hPQ m (h m hm)

/-- The node with other links to its neighbours. -/
def linked (p q : Option Nat) (n : Node) : Node :=
  { n with prev := p, next := q }

/-- A property that does not look at the links of a node survives a change of
them. -/
theorem Everywhere.linked {P : Node → Prop} {n : Node} (h : n.Everywhere P)
    (p q : Option Nat) (hP : P n → P (n.linked p q)) : (n.linked p q).Everywhere P :=
  everywhere_iff.mpr ⟨hP h.self, fun _ hm => h.child hm⟩

theorem mem_chainFrom {m : Node} {i : Nat} {parts : List Node} (h : m ∈ chainFrom i parts) :
    ∃ n ∈ parts, ∃ p q, m = n.linked p q := by
  induction parts generalizing i with
  | nil => simp [chainFrom] at h
  | cons n ns ih =>
      rcases List.mem_cons.mp h with rfl | h
      · exact ⟨n, List.mem_cons_self, _, _, rfl⟩
      · obtain ⟨k, hk, p, q, rfl⟩ := ih h
        exact ⟨k, List.mem_cons_of_mem n hk, p, q, rfl⟩

theorem mem_chain {m : Node} {parts : List Node} (h : m ∈ chain parts) :
    ∃ n ∈ parts, ∃ p q, m = n.linked p q :=
  mem_chainFrom h

end QueryTree.Node
