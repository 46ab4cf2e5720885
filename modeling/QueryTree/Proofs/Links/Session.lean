import QueryTree.Proofs.Edit.Session
import QueryTree.Proofs.Links.Grammar
import QueryTree.Proofs.Nesting.Levels

/-!
# Links during a session

In the tree of a source the children of every node are in order, except that the parts of
the statement are not linked. Edits neither move a node nor write its links, so this stays
true during every session.
-/

namespace QueryTree

open Node Grammar

namespace Grammar

/-- The parts of a statement are added without links. -/
theorem statement_built {depth : Nat} {t rest : Text} {n : Node}
    (h : statement depth t = .found n rest) : ∃ parts : List Node,
      (∀ m ∈ parts, m.Built) ∧ n = Node.branch .statement (attachEach parts) rest := by
  obtain ⟨rfl, parts, hparts, rfl⟩ := statement_eq_found.mp h
  exact ⟨parts, statementParts_built depth t parts [] hparts, by rw [attachEach_eq]⟩

end Grammar

section Parsing

variable {depth : Nat} {q : Text} {root n : Node} {path : Path}

theorem isUnlinked_of_parse (h : parse depth q = .ok root) : root.IsUnlinked := by
  obtain ⟨parts, _, rfl⟩ := statement_built (parse_eq_ok.mp h)
  exact ⟨rfl, rfl⟩

/-- The root is the only statement of a tree. -/
theorem category_eq_statement_iff (h : parse depth q = .ok root)
    (hn : root.at? path = some n) : n.category = .statement ↔ path = [] := by
  rcases List.eq_nil_or_concat path with rfl | ⟨path, i, rfl⟩
  · obtain rfl := Option.some.inj hn
    simpa using Phrase.label_mem_part.mp (derives_of_parse h).labels
  · rw [List.concat_eq_append, at?_append] at hn
    obtain ⟨k, hk, hi⟩ := Option.bind_eq_some_iff.mp hn
    rw [at?_singleton] at hi
    have hpart := (formed_of_parse h k (mem_preorder_iff_at?.mpr ⟨path, hk⟩)).mem_partCategories
      (List.mem_of_getElem? hi)
    have hnever : ∀ c : Category, .statement ∉ c.partCategories := by
      intro c
      cases c <;> decide
    refine iff_of_false (fun hstatement => hnever k.category (hstatement ▸ hpart)) ?_
    simp

/-- In the tree of a source the parts of the statement have no links, and all other nodes
have children that are linked to their neighbours. -/
theorem links_of_parse (h : parse depth q = .ok root) (hn : root.at? path = some n) :
    (n.category = .statement → ∀ child ∈ n.children, child.IsUnlinked) ∧
      (n.category ≠ .statement → n.LinksNeighbours) := by
  have hroot := category_eq_statement_iff h hn
  obtain ⟨parts, hparts, rfl⟩ := statement_built (parse_eq_ok.mp h)
  rw [attachEach_eq] at hn
  constructor
  · intro hstatement child hchild
    obtain rfl := hroot.mp hstatement
    obtain rfl := Option.some.inj hn
    exact (hparts child hchild).isUnlinked
  · intro hother
    cases path with
    | nil => exact absurd rfl (hother ∘ hroot.mpr)
    | cons i path =>
        rw [at?_cons] at hn
        obtain ⟨k, hk, hbelow⟩ := Option.bind_eq_some_iff.mp hn
        exact (hparts k (List.mem_of_getElem? hk)).everywhere n
          (mem_preorder_iff_at?.mpr ⟨path, hbelow⟩)

end Parsing

section Revising

variable {n m k k' : Node} {path : Path}

/-- A child in the place of another one has its links. -/
theorem Node.Pathwise.links_child (h : Pathwise (fun _ => SamePlace) n m)
    (hn : n.at? path = some k) (hm : m.at? path = some k') {i : Nat} {child' : Node}
    (hchild : k'.children[i]? = some child') :
    ∃ child, k.children[i]? = some child ∧ child'.prev = child.prev ∧
      child'.next = child.next := by
  have hrel := h.child_at hn hm i
  rw [hchild] at hrel
  generalize k.children[i]? = x at hrel
  cases hrel with
  | some hsame => exact ⟨_, rfl, hsame.prev, hsame.next⟩

theorem Node.Pathwise.linksNeighbours (h : Pathwise (fun _ => SamePlace) n m)
    (hn : n.at? path = some k) (hm : m.at? path = some k') (hk : k.LinksNeighbours) :
    k'.LinksNeighbours := by
  obtain ⟨_, hm', hsame⟩ := h.at? hn
  obtain rfl := Option.some.inj (hm.symm.trans hm')
  intro i child' hchild'
  obtain ⟨child, hchild, hprev, hnext⟩ := h.links_child hn hm hchild'
  rw [hprev, hnext, hsame.length]
  exact hk i child hchild

theorem Node.Pathwise.unlinked_children (h : Pathwise (fun _ => SamePlace) n m)
    (hn : n.at? path = some k) (hm : m.at? path = some k')
    (hk : ∀ child ∈ k.children, child.IsUnlinked) : ∀ child ∈ k'.children, child.IsUnlinked := by
  intro child' hmem
  obtain ⟨i, hchild'⟩ := List.mem_iff_getElem?.mp hmem
  obtain ⟨child, hchild, hprev, hnext⟩ := h.links_child hn hm hchild'
  have hunlinked := hk child (List.mem_of_getElem? hchild)
  exact ⟨hprev.trans hunlinked.1, hnext.trans hunlinked.2⟩

end Revising

namespace Session

variable {σ : Type} {depth : Nat} {q : Text} {root : Node}

/-- The links are the order. After every session the root has no links, and neither have
the parts of the statement, which is the root and no other node. The children of every
other node are linked to their neighbours, so that the way from a child leads through all
children after it, and ends there. -/
theorem order_links_are_neighbours (h : parse depth q = .ok root) (session : Session σ)
    (s : σ) : (session.run (root, s)).1.IsUnlinked ∧
      Pathwise (fun path n m => (n.category = .statement ↔ path = []) ∧
        (n.category = .statement → m.Unordered) ∧ (n.category ≠ .statement → m.InOrder))
        root (session.run (root, s)).1 := by
  have hsame : Pathwise (fun _ => SamePlace) root (session.run (root, s)).1 :=
    (session.run_revises (root, s)).samePlace
  have hroot := isUnlinked_of_parse h
  refine ⟨⟨hsame.self.prev.trans hroot.1, hsame.self.next.trans hroot.2⟩, fun path => ?_⟩
  have hpath := hsame path
  generalize hn : root.at? path = x at hpath ⊢
  generalize hm : (session.run (root, s)).1.at? path = y at hpath ⊢
  cases hpath with
  | none => exact .none
  | some _ =>
      obtain ⟨hstatement, hother⟩ := links_of_parse h hn
      exact .some ⟨category_eq_statement_iff h hn,
        fun hc => .of_unlinked (hsame.unlinked_children hn hm (hstatement hc)),
        fun hc => (hsame.linksNeighbours hn hm (hother hc)).inOrder⟩

theorem order_links_are_neighbours_bound :
    ∃ root, parse 2 "SELECT a, b FROM t WHERE c = ?;".toList = .ok root ∧
      (run [.bind [.integer 7], .replaceWith .command 1 fun _ text => (text, ())]
        (root, ())).1.Unordered ∧
      ∀ n, (run [.bind [.integer 7], .replaceWith .command 1 fun _ text => (text, ())]
        (root, ())).1.at? [0] = some n → n.InOrder := by
  obtain ⟨root, hroot⟩ := exists_tree_of_isOk 2 "SELECT a, b FROM t WHERE c = ?;".toList
    (by decide +kernel)
  have hlinks := (order_links_are_neighbours hroot
    [.bind [.integer 7], .replaceWith .command 1 fun _ text => (text, ())] ()).2
  refine ⟨root, hroot, hlinks.self.2.1 (hlinks.self.1.mpr rfl), fun n hn => ?_⟩
  have hpath := hlinks [0]
  rw [hn] at hpath
  generalize root.at? [0] = x at hpath
  cases hpath with
  | some h => exact h.2.2 fun hc => nomatch h.1.mp hc

end Session

end QueryTree
