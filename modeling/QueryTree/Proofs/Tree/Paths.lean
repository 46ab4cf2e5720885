import Mathlib.Data.List.Forall2
import QueryTree.Node.Path
import QueryTree.Proofs.Tree.Preorder

/-!
# Nodes by their paths

The nodes of a tree are those that a path leads to. Two trees are compared node by node,
each path leading to a node in both of them or in neither.
-/

namespace QueryTree.Node

/-- What a node is apart from its text. -/
structure Shape where
  category : Category
  prev : Option Nat
  next : Option Nat
  /-- The number of children. -/
  arity : Nat
deriving DecidableEq

/-- The category of a node, its links and the number of its children. -/
def shape (n : Node) : Shape :=
  ⟨n.category, n.prev, n.next, n.children.length⟩

@[simp] theorem at?_nil (n : Node) : n.at? [] = some n := rfl

theorem at?_cons (i : Nat) (path : Path) (n : Node) :
    n.at? (i :: path) = n.children[i]?.bind (at? path) := rfl

theorem at?_singleton (i : Nat) (n : Node) : n.at? [i] = n.children[i]? := by
  rw [at?_cons]
  cases n.children[i]? <;> rfl

/-- A path that goes on from another one leads on from the node there. -/
theorem at?_append (path rest : Path) (n : Node) :
    n.at? (path ++ rest) = (n.at? path).bind (at? rest) := by
  induction path generalizing n with
  | nil => rfl
  | cons i path ih =>
      rw [List.cons_append, at?_cons, at?_cons]
      cases n.children[i]? with
      | none => rfl
      | some k => exact ih k

@[simp] theorem children_modifyAt_cons (f : Node → Node) (i : Nat) (path : Path) (n : Node) :
    (n.modifyAt f (i :: path)).children = n.children.modify i (modifyAt f path) := rfl

/-- At the path itself the changed node stands. -/
theorem at?_modifyAt (f : Node → Node) (path : Path) (n : Node) :
    (n.modifyAt f path).at? path = (n.at? path).map f := by
  induction path generalizing n with
  | nil => rfl
  | cons i path ih =>
      rw [at?_cons, at?_cons, children_modifyAt_cons, List.getElem?_modify_eq]
      cases n.children[i]? with
      | none => rfl
      | some k => exact ih k

/-- Apart from the way to the node and what is below it, a changed tree is the same. -/
theorem at?_modifyAt_of_apart {n : Node} {f : Node → Node} {path p : Path} (h : ¬path <+: p)
    (h' : ¬p <+: path) : (n.modifyAt f path).at? p = n.at? p := by
  induction path generalizing n p with
  | nil => exact absurd List.nil_prefix h
  | cons i path ih =>
      cases p with
      | nil => exact absurd List.nil_prefix h'
      | cons j p =>
          rw [at?_cons, at?_cons, children_modifyAt_cons]
          by_cases hij : i = j
          · subst hij
            rw [List.cons_prefix_cons, and_iff_right rfl] at h h'
            rw [List.getElem?_modify_eq]
            cases n.children[i]? with
            | none => rfl
            | some k => exact ih h h'
          · rw [List.getElem?_modify_ne _ _ hij]

theorem modifyAt_id (path : Path) (n : Node) : n.modifyAt id path = n := by
  induction path generalizing n with
  | nil => rfl
  | cons i path ih =>
      have hid : modifyAt id path = id := funext ih
      obtain ⟨_, _, _, _, _, _, _⟩ := n
      rw [modifyAt, hid, List.modify_id]

/-- The nodes of a tree are the nodes at its paths. -/
theorem mem_preorder_iff_at? {m n : Node} : m ∈ n.preorder ↔ ∃ path, n.at? path = some m := by
  induction n using induction_children with
  | step n ih =>
      rw [mem_preorder_iff]
      constructor
      · rintro (rfl | ⟨k, hk, hm⟩)
        · exact ⟨[], rfl⟩
        · obtain ⟨path, hpath⟩ := (ih k hk).mp hm
          obtain ⟨i, hi⟩ := List.mem_iff_getElem?.mp hk
          exact ⟨i :: path, by rw [at?_cons, hi, Option.bind_some, hpath]⟩
      · rintro ⟨path, hpath⟩
        cases path with
        | nil => exact Or.inl (Option.some.inj hpath).symm
        | cons i path =>
            rw [at?_cons] at hpath
            obtain ⟨k, hk, hm⟩ := Option.bind_eq_some_iff.mp hpath
            have hmem := List.mem_of_getElem? hk
            exact Or.inr ⟨k, hmem, (ih k hmem).mpr ⟨path, hm⟩⟩

/-- Whether two trees have nodes at the same paths, and those at a path are related by
`R path`. -/
def Pathwise (R : Path → Node → Node → Prop) (n m : Node) : Prop :=
  ∀ path, Option.Rel (R path) (n.at? path) (m.at? path)

namespace Pathwise

variable {R S : Path → Node → Node → Prop} {n m k : Node}

theorem self (h : Pathwise R n m) : R [] n m := by
  have hroot := h []
  rw [at?_nil, at?_nil] at hroot
  cases hroot with
  | some hroot => exact hroot

/-- The node that another one is related to. -/
theorem at? {path : Path} (h : Pathwise R n m) (hn : n.at? path = some k) :
    ∃ k', m.at? path = some k' ∧ R path k k' := by
  have hpath := h path
  rw [hn] at hpath
  generalize m.at? path = y at hpath ⊢
  cases hpath with
  | some hk => exact ⟨_, rfl, hk⟩

/-- The node that is related to another one. -/
theorem exists_of_mem (h : Pathwise R n m) (hk : k ∈ m.preorder) :
    ∃ k' ∈ n.preorder, ∃ path, R path k' k := by
  obtain ⟨path, hm⟩ := mem_preorder_iff_at?.mp hk
  have hpath := h path
  rw [hm] at hpath
  generalize hn : n.at? path = x at hpath
  cases hpath with
  | some hk => exact ⟨_, mem_preorder_iff_at?.mpr ⟨path, hn⟩, path, hk⟩

theorem mono (h : Pathwise R n m) (hRS : ∀ path k k', R path k k' → S path k k') :
    Pathwise S n m := by
  intro path
  have hpath := h path
  generalize n.at? path = x at hpath ⊢
  generalize m.at? path = y at hpath ⊢
  cases hpath with
  | none => exact .none
  | some hk => exact .some (hRS path _ _ hk)

/-- Related trees are related child by child. -/
theorem child {i : Nat} (h : Pathwise R n m) :
    Option.Rel (Pathwise fun path => R (i :: path)) n.children[i]? m.children[i]? := by
  have hi := h [i]
  rw [at?_singleton, at?_singleton] at hi
  have hall := fun path => h (i :: path)
  simp only [at?_cons] at hall
  generalize n.children[i]? = x at hi hall ⊢
  generalize m.children[i]? = y at hi hall ⊢
  cases hi with
  | none => exact .none
  | some _ => exact .some hall

/-- Related trees have related children at every path. -/
theorem child_at {k' : Node} {path : Path} (h : Pathwise R n m) (hn : n.at? path = some k)
    (hm : m.at? path = some k') (i : Nat) :
    Option.Rel (R (path ++ [i])) k.children[i]? k'.children[i]? := by
  have hpath := h (path ++ [i])
  rwa [at?_append, at?_append, hn, hm, Option.bind_some, Option.bind_some, at?_singleton,
    at?_singleton] at hpath

/-- Trees are related if their roots and their children are. -/
theorem of_children (hroot : R [] n m)
    (hchildren : ∀ i, Option.Rel (Pathwise fun path => R (i :: path))
      n.children[i]? m.children[i]?) : Pathwise R n m := by
  intro path
  cases path with
  | nil => exact .some hroot
  | cons i path =>
      have hi := hchildren i
      rw [at?_cons, at?_cons]
      generalize n.children[i]? = x at hi ⊢
      generalize m.children[i]? = y at hi ⊢
      cases hi with
      | none => exact .none
      | some hi => exact hi path

/-- Trees are related in the same way everywhere if their roots and their children are. -/
theorem of_forall₂ {R : Node → Node → Prop} (hroot : R n m)
    (hchildren : List.Forall₂ (Pathwise fun _ => R) n.children m.children) :
    Pathwise (fun _ => R) n m := by
  apply of_children hroot
  generalize n.children = ns at hchildren
  generalize m.children = ms at hchildren
  induction hchildren with
  | nil => exact fun _ => .none
  | cons hk _ ih =>
      intro i
      cases i with
      | zero => exact .some hk
      | succ i => exact ih i

end Pathwise

end QueryTree.Node
