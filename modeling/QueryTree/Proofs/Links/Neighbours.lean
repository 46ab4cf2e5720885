import Mathlib.Data.List.Induction
import QueryTree.Proofs.Tree.Preorder

/-!
# Links between neighbours

The parts of a production are linked by their positions. While a production grows, the
link of a part forwards is still missing, and it is written into the part when the next
one comes. What results are links to the neighbours and nothing else, so that the links
lead from every part through the rest of the production to its end.
-/

namespace QueryTree.Node

/-- Whether a node has no links. -/
def IsUnlinked (n : Node) : Prop :=
  n.prev = none ∧ n.next = none

/-- The position before a position. -/
def positionBefore : Nat → Option Nat
  | 0 => none
  | i + 1 => some i

/-- The position after a position of a list. -/
def positionAfter (length i : Nat) : Option Nat :=
  if i + 1 = length then none else some (i + 1)

section Growing

/-- A production that grows: its parts so far, and the position of the part that waits
for its link forwards. -/
structure Growth where
  parts : List Node
  tail : Option Nat

namespace Growth

/-- A production without parts. -/
def empty : Growth where
  parts := []
  tail := none

/-- Adds a part and links it with the part that waits for its link. -/
def link (g : Growth) (n : Node) : Growth where
  parts := match g.tail with
    | none => g.parts ++ [n]
    | some i =>
      (g.parts.modify i fun m => { m with next := some g.parts.length }) ++
        [{ n with prev := some i }]
  tail := some g.parts.length

/-- Adds a part without links. -/
def attach (g : Growth) (n : Node) : Growth where
  parts := g.parts ++ [n]
  tail := none

end Growth

/-- The parts of a production that are linked as they come. -/
def linkEach (parts : List Node) : List Node :=
  (parts.foldl Growth.link Growth.empty).parts

/-- The parts of a production that are added without links. -/
def attachEach (parts : List Node) : List Node :=
  (parts.foldl Growth.attach Growth.empty).parts

theorem getElem?_chainFrom (i k : Nat) (parts : List Node) :
    (chainFrom i parts)[k]? = parts[k]?.map
      (linked (positionBefore (i + k))
        ((positionAfter parts.length k).map fun j => i + j)) := by
  induction parts generalizing i k with
  | nil => rfl
  | cons n ns ih =>
      cases k with
      | zero => cases i <;> cases ns <;> rfl
      | succ k =>
          have hbefore : i + 1 + k = i + (k + 1) := by omega
          have hafter : (positionAfter ns.length k).map (fun j => i + 1 + j) =
              (positionAfter (ns.length + 1) (k + 1)).map fun j => i + j := by
            simp only [positionAfter, Nat.succ_inj]
            split
            · rfl
            · exact congrArg some (show i + 1 + (k + 1) = i + (k + 1 + 1) by omega)
          rw [chainFrom, List.getElem?_cons_succ, ih, hbefore, hafter]
          rfl

/-- The parts of a production are linked by their positions. -/
theorem getElem?_chain (k : Nat) (parts : List Node) :
    (chain parts)[k]? =
      parts[k]?.map (linked (positionBefore k) (positionAfter parts.length k)) := by
  have h := getElem?_chainFrom 0 k parts
  simp only [Nat.zero_add, Option.map_id'] at h
  exact h

variable {n : Node}

/-- How a part is linked does not depend on what comes after the next one. -/
theorem chainFrom_append (i : Nat) (ns : List Node) :
    ∃ front, front.length = ns.length ∧ ∀ m ms,
      chainFrom i (ns ++ m :: ms) = front ++ chainFrom (i + ns.length) (m :: ms) := by
  induction ns generalizing i with
  | nil => exact ⟨[], rfl, fun _ _ => rfl⟩
  | cons n ns ih =>
      obtain ⟨front, hlength, happend⟩ := ih (i + 1)
      refine ⟨n.linked (positionBefore i) (some (i + 1)) :: front, by simp [hlength], ?_⟩
      intro m ms
      rw [List.cons_append, chainFrom, happend, List.length_cons, List.cons_append,
        Nat.add_right_comm, Nat.add_assoc]
      cases i <;> simp [linked, positionBefore]

theorem modify_concat (f : Node → Node) (front : List Node) (m : Node) :
    (front ++ [m]).modify front.length f = front ++ [f m] := by
  induction front with
  | nil => rfl
  | cons k front ih => rw [List.cons_append, List.length_cons, List.modify_succ_cons, ih]; rfl

/-- A new part changes the part that waits for its link, and no other. -/
theorem link_chain (parts : List Node) (h : n.IsUnlinked) :
    (Growth.mk (chain parts) (positionBefore parts.length)).link n =
      ⟨chain (parts ++ [n]), positionBefore (parts ++ [n]).length⟩ := by
  obtain ⟨_, _, _, _, _, _, _⟩ := n
  obtain ⟨rfl, rfl⟩ := h
  rcases List.eq_nil_or_concat parts with rfl | ⟨parts, m, rfl⟩
  · rfl
  · obtain ⟨front, hfront, happend⟩ := chainFrom_append 0 parts
    have hgrown : chain (parts ++ [m]) = front ++ [m.linked (positionBefore parts.length) none] := by
      rw [chain, happend, Nat.zero_add]
      cases parts.length <;> rfl
    have hlonger : ∀ n, chain (parts ++ [m, n]) =
        front ++ [m.linked (positionBefore parts.length) (some (parts.length + 1)),
          n.linked (some parts.length) none] := by
      intro n
      rw [chain, happend, Nat.zero_add]
      cases parts.length <;> rfl
    rw [List.concat_eq_append, List.append_assoc, List.singleton_append, hgrown, hlonger,
      List.length_append, List.length_singleton, Growth.link, positionBefore]
    simp only [← hfront, modify_concat, List.length_append, List.length_singleton,
      List.append_assoc]
    rfl

/-- Linking the parts as they come links each of them to its neighbours. -/
theorem linkEach_eq_chain {parts : List Node} (h : ∀ n ∈ parts, n.IsUnlinked) :
    linkEach parts = chain parts := by
  have hgrowth : parts.foldl Growth.link Growth.empty =
      ⟨chain parts, positionBefore parts.length⟩ := by
    induction parts using List.reverseRec with
    | nil => rfl
    | append_singleton parts n ih =>
        rw [List.foldl_append, ih fun m hm => h m (List.mem_append_left [n] hm)]
        exact link_chain parts (h n (by simp))
  rw [linkEach, hgrowth]

theorem attachEach_eq (parts : List Node) : attachEach parts = parts := by
  have hgrowth : ∀ g : Growth,
      (parts.foldl Growth.attach g).parts = g.parts ++ parts := by
    induction parts with
    | nil => exact fun g => (List.append_nil g.parts).symm
    | cons n ns ih =>
        intro g
        rw [List.foldl_cons, ih, Growth.attach, List.append_assoc, List.singleton_append]
  exact hgrowth Growth.empty

end Growing

section Walking

/-- The parts that the links lead through from position `i` on. Every link on the way
leads to a part, and the way ends at a part without a link forwards. -/
inductive Leads (parts : List Node) : Nat → List Node → Prop
  | last {i n} (h : parts[i]? = some n) (hnext : n.next = none) : Leads parts i [n]
  | step {i j n ns} (h : parts[i]? = some n) (hnext : n.next = some j)
      (rest : Leads parts j ns) : Leads parts i (n :: ns)

/-- Whether the children of a node are linked to their neighbours and to no others. -/
def LinksNeighbours (n : Node) : Prop :=
  ∀ (i : Nat) (child : Node), n.children[i]? = some child →
    child.prev = positionBefore i ∧ child.next = positionAfter n.children.length i

/-- Whether the links among the children of a node are their order: every child is linked
to its neighbours, the way from a child leads through all children after it, and a step
forwards is undone by a step backwards. -/
structure InOrder (n : Node) : Prop where
  links : n.LinksNeighbours
  leads : ∀ i < n.children.length, Leads n.children i (n.children.drop i)
  sequence : ∀ i < n.children.length, n.sequence i = n.children.drop i
  forwards : ∀ i, n.nextInOrder i = n.children[i + 1]?
  backwards : ∀ i, i + 1 < n.children.length → n.prevInOrder (i + 1) = n.children[i]?
  first : n.prevInOrder 0 = none

/-- Whether the children of a node have no links, so that the way from a child ends there. -/
structure Unordered (n : Node) : Prop where
  unlinked : ∀ child ∈ n.children, child.IsUnlinked
  leads : ∀ (i : Nat) (child : Node), n.children[i]? = some child →
    Leads n.children i [child]
  sequence : ∀ (i : Nat) (child : Node), n.children[i]? = some child → n.sequence i = [child]

variable {n : Node} {parts ns : List Node} {i : Nat}

/-- Following the links with enough steps is the way that they lead. -/
theorem Leads.follow_eq (h : Leads parts i ns) {steps : Nat} (hsteps : ns.length ≤ steps) :
    follow parts steps i = ns := by
  induction h generalizing steps with
  | last h hnext =>
      obtain ⟨steps, rfl⟩ := Nat.exists_eq_add_of_le' hsteps
      simp only [List.length_singleton, follow, h, hnext]
  | step h hnext _ ih =>
      obtain ⟨steps, rfl⟩ := Nat.exists_eq_add_of_le' (Nat.lt_of_lt_of_le (Nat.zero_lt_succ _) hsteps)
      simp only [follow, h, hnext, ih (Nat.le_of_succ_le_succ hsteps)]

theorem LinksNeighbours.leads (h : n.LinksNeighbours) (hi : i < n.children.length) :
    Leads n.children i (n.children.drop i) := by
  induction hlength : n.children.length - (i + 1) generalizing i with
  | zero =>
      have hlast : i + 1 = n.children.length := by omega
      have hdrop : n.children.drop (i + 1) = [] := List.drop_eq_nil_of_le (Nat.le_of_eq hlast.symm)
      rw [List.drop_eq_getElem_cons hi, hdrop]
      have hchild := List.getElem?_eq_getElem hi
      refine .last hchild ?_
      rw [(h i _ hchild).2, positionAfter, if_pos hlast]
  | succ k ih =>
      have hmore : i + 1 < n.children.length := by omega
      rw [List.drop_eq_getElem_cons hi]
      have hchild := List.getElem?_eq_getElem hi
      refine .step hchild ?_ (ih hmore (by omega))
      rw [(h i _ hchild).2, positionAfter, if_neg (Nat.ne_of_lt hmore)]

theorem LinksNeighbours.nextInOrder (h : n.LinksNeighbours) (i : Nat) :
    n.nextInOrder i = n.children[i + 1]? := by
  rw [Node.nextInOrder]
  cases hchild : n.children[i]? with
  | none =>
      have hi := List.getElem?_eq_none_iff.mp hchild
      exact (List.getElem?_eq_none (Nat.le_succ_of_le hi)).symm
  | some child =>
      rw [Option.bind_eq_bind, Option.bind_some, (h i child hchild).2, positionAfter]
      split
      next hlast => exact (List.getElem?_eq_none (Nat.le_of_eq hlast.symm)).symm
      next => rfl

theorem LinksNeighbours.prevInOrder (h : n.LinksNeighbours) (hi : i < n.children.length) :
    n.prevInOrder i = (positionBefore i).bind fun j => n.children[j]? := by
  have hchild := List.getElem?_eq_getElem hi
  rw [Node.prevInOrder, hchild, Option.bind_eq_bind, Option.bind_some, (h i _ hchild).1]
  rfl

/-- Children that are linked to their neighbours are in order. -/
theorem LinksNeighbours.inOrder (h : n.LinksNeighbours) : n.InOrder where
  links := h
  leads _ hi := h.leads hi
  sequence i hi := (h.leads hi).follow_eq (by simp)
  forwards := h.nextInOrder
  backwards i hi := h.prevInOrder hi
  first := by
    rcases Nat.eq_zero_or_pos n.children.length with hnil | hpos
    · rw [Node.prevInOrder, List.length_eq_zero_iff.mp hnil]
      rfl
    · exact h.prevInOrder hpos

/-- From a child without links no way leads on. -/
theorem Unordered.of_unlinked (h : ∀ child ∈ n.children, child.IsUnlinked) : n.Unordered := by
  have hleads : ∀ (i : Nat) (child : Node), n.children[i]? = some child →
      Leads n.children i [child] := fun i child hchild =>
    .last hchild (h child (List.mem_of_getElem? hchild)).2
  refine ⟨h, hleads, fun i child hchild => (hleads i child hchild).follow_eq ?_⟩
  exact List.length_pos_of_mem (List.mem_of_getElem? hchild)

/-- The children of a production are in order. -/
theorem linksNeighbours_branch (c : Category) (parts : List Node) (rest : Text) :
    (branch c (chain parts) rest).LinksNeighbours := by
  intro i child hchild
  obtain ⟨m, _, rfl⟩ := Option.map_eq_some_iff.mp ((getElem?_chain i parts).symm.trans hchild)
  exact ⟨rfl, congrArg (positionAfter · i) (length_chain parts).symm⟩

end Walking

end QueryTree.Node
