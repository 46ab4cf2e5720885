import Mathlib.Data.Fin.VecNotation
import Mathlib.Data.List.FinRange
import Mathlib.Logic.Equiv.Fin.Rotate
import QueryTree.Proofs.Edit.Atomicity

/-!
# Placeholders filled in any order

The open placeholders of a tree can be filled one by one, in any order, as long as each
position is counted among the placeholders that are still left. The writes are then the same
as those of a binding. As they are made at nodes apart from each other, their order does not
matter.
-/

namespace QueryTree.Node

variable {k : Nat}

/-- The number of positions before `j` at which nothing has been filled yet. -/
def leftBefore (filled : List (Fin k)) (j : Fin k) : Nat :=
  (List.finRange k).countP fun i => i < j ∧ i ∉ filled

/-- Fills the placeholders of a tree in an order of their positions at the start, each with
the value for its position. Those at the positions in `filled` have been filled already. -/
def fillInOrder (values : Fin k → Value) (filled : List (Fin k)) :
    List (Fin k) → Node → Except EditError Node
  | [], root => .ok root
  | j :: order, root => do
    let root ← root.replace .placeholderInject (values j) (leftBefore filled j)
    fillInOrder values (filled ++ [j]) order root

/-- The changes that write values over the nodes at some positions. -/
def changesAt (path : Fin k → Path) (values : Fin k → Value) (filled : List (Fin k)) :
    List (Path × Value) :=
  filled.map fun j => (path j, values j)

theorem map_fst_changesAt (path : Fin k → Path) (values : Fin k → Value)
    (filled : List (Fin k)) : (changesAt path values filled).map Prod.fst = filled.map path := by
  rw [changesAt, List.map_map]
  rfl

/-- In a list in increasing order an element stands behind all that are smaller. -/
theorem getElem?_countP_lt {l : List (Fin k)} (hl : l.Pairwise (· < ·)) {j : Fin k}
    (h : j ∈ l) : l[l.countP (· < j)]? = some j := by
  induction l with
  | nil => cases h
  | cons i l ih =>
      obtain ⟨hfirst, hrest⟩ := List.pairwise_cons.mp hl
      rcases List.mem_cons.mp h with rfl | h
      · have hnone : l.countP (· < j) = 0 :=
          List.countP_eq_zero.mpr fun i hi => by simpa using (hfirst i hi).le
        rw [List.countP_cons_of_neg (by simp), hnone, List.getElem?_cons_zero]
      · rw [List.countP_cons_of_pos (by simpa using hfirst j h), List.getElem?_cons_succ,
          ih hrest h]

variable {n : Node} {path : Fin k → Path} {values : Fin k → Value}

/-- The position among the placeholders that are left leads to the same placeholder as the
position at the start. -/
theorem select_leftBefore (hmarks : n.AtomicMarks)
    (hpaths : n.openPaths .placeholderInject = (List.finRange k).map path)
    {filled : List (Fin k)} (hfilled : filled.Nodup) {j : Fin k} (hj : j ∉ filled) :
    (n.changeEach overwriteWithLiteral (changesAt path values filled)).select .placeholderInject
      (leftBefore filled j) = .ok (path j) := by
  have hinjective : Function.Injective path := by
    have hnodup := openPaths_nodup .placeholderInject n
    rw [hpaths] at hnodup
    exact fun i j hij =>
      List.inj_on_of_nodup_map hnodup (List.mem_finRange i) (List.mem_finRange j) hij
  have hopen : (n.changeEach overwriteWithLiteral (changesAt path values filled)).openPaths
      .placeholderInject = ((List.finRange k).filter (· ∉ filled)).map path := by
    rw [openPaths_changeEach hmarks, hpaths, List.filter_map, map_fst_changesAt]
    · congr 1
      apply List.filter_congr
      intro i _
      simp only [Function.comp_apply, List.mem_map_of_injective hinjective]
    · rw [map_fst_changesAt, hpaths]
      exact List.map_subset path fun i _ => List.mem_finRange i
    · rw [map_fst_changesAt]
      exact hfilled.map hinjective
  have hplace : ((List.finRange k).filter (· ∉ filled)).countP (· < j) = leftBefore filled j := by
    rw [List.countP_filter, leftBefore]
    simp only [Bool.decide_and]
  have hleft : j ∈ (List.finRange k).filter (· ∉ filled) :=
    List.mem_filter.mpr ⟨List.mem_finRange j, decide_eq_true hj⟩
  rw [select_eq_ok, hopen, List.getElem?_map, ← hplace,
    getElem?_countP_lt ((List.pairwise_lt_finRange k).filter _) hleft, Option.map_some]

/-- No step of filling placeholders in an order fails. -/
theorem fillInOrder_eq_changeEach (hmarks : n.AtomicMarks)
    (hpaths : n.openPaths .placeholderInject = (List.finRange k).map path)
    (values : Fin k → Value) (filled order : List (Fin k)) (h : (filled ++ order).Nodup) :
    fillInOrder values filled order
        (n.changeEach overwriteWithLiteral (changesAt path values filled)) =
      .ok (n.changeEach overwriteWithLiteral (changesAt path values (filled ++ order))) := by
  induction order generalizing filled with
  | nil => rw [List.append_nil, fillInOrder]
  | cons j order ih =>
      have hfilled : filled.Nodup := h.of_append_left
      have hj : j ∉ filled := fun hmem =>
        List.disjoint_of_nodup_append h hmem List.mem_cons_self
      have hstep : (n.changeEach overwriteWithLiteral (changesAt path values filled)).replace
          .placeholderInject (values j) (leftBefore filled j) =
            .ok (n.changeEach overwriteWithLiteral (changesAt path values (filled ++ [j]))) := by
        rw [replace_of_select (select_leftBefore hmarks hpaths hfilled hj), changesAt, changesAt,
          List.map_append, changeEach, changeEach, List.foldl_append]
        rfl
      rw [List.append_cons] at h ⊢
      rw [fillInOrder, hstep]
      exact ih (filled ++ [j]) h

/-- Placeholders can be filled in any order. In a tree that edits have made of a parsed one,
with as many open placeholders as values, each value is written over the placeholder at its
position. At each step the position is counted among the placeholders that have not been
filled yet. No step fails, and the tree is at the end the one that a binding makes. -/
theorem fill_in_any_order (h : n.Reachable) (hk : n.countOpen .placeholderInject = k)
    (values : Fin k → Value) (p : Equiv.Perm (Fin k)) :
    ∃ m, fillInOrder values [] (List.ofFn p) n = .ok m ∧
      n.bind (List.ofFn values) = .ok (m, k) := by
  obtain ⟨path, hpaths⟩ : ∃ path : Fin k → Path,
      n.openPaths .placeholderInject = (List.finRange k).map path := by
    rw [← length_openPaths] at hk
    subst hk
    exact ⟨_, (List.map_getElem_finRange _).symm⟩
  have hall : (List.ofFn p).Perm (List.finRange k) := by
    rw [List.ofFn_eq_map]
    exact p.map_finRange_perm
  have hzip : (n.openPaths .placeholderInject).zip (List.ofFn values) =
      changesAt path values (List.finRange k) := by
    rw [hpaths, List.ofFn_eq_map, List.zip_map', changesAt]
  have hapart : ((changesAt path values (List.finRange k)).map Prod.fst).Pairwise Path.Apart := by
    rw [map_fst_changesAt, ← hpaths]
    exact openPaths_apart h.atomicMarks
  have hlength : (List.ofFn values).length = n.countOpen .placeholderInject := by
    rw [List.length_ofFn, hk]
  have hfill := fillInOrder_eq_changeEach h.atomicMarks hpaths values [] (List.ofFn p)
    (hall.nodup_iff.mpr (List.nodup_finRange k))
  have hsame : n.changeEach overwriteWithLiteral (changesAt path values (List.ofFn p)) =
      n.changeEach overwriteWithLiteral
        ((n.openPaths .placeholderInject).zip (List.ofFn values)) := by
    rw [hzip]
    exact (changeEach_perm hapart (hall.symm.map _)).symm
  refine ⟨_, hfill, ?_⟩
  rw [List.nil_append, hsame, (bind_eq_changeEach h.atomicMarks hlength).1, List.length_ofFn]

/-- The last mark is filled first, then the first one, which is still at position 0, and
then the middle one, which has moved there. -/
theorem fill_in_any_order_rotated :
    ∃ root, parse 2 "SELECT ?, ? FROM t WHERE a = ?".toList = .ok root ∧
      ∃ m, fillInOrder ![.integer 1, .null, .text "x".toList] []
          (List.ofFn (finRotate 3).symm) root = .ok m ∧
        root.bind [.integer 1, .null, .text "x".toList] = .ok (m, 3) := by
  obtain ⟨root, hroot⟩ := exists_tree_of_isOk 2 "SELECT ?, ? FROM t WHERE a = ?".toList
    (by decide +kernel)
  have hmap : (parse 2 "SELECT ?, ? FROM t WHERE a = ?".toList).map
      (countOpen .placeholderInject) = .ok 3 := by
    decide +kernel
  rw [hroot] at hmap
  have h : root.Reachable := ⟨Unit, 2, _, root, [], (), hroot, rfl⟩
  exact ⟨root, hroot, fill_in_any_order h (Except.ok.inj hmap)
    ![.integer 1, .null, .text "x".toList] (finRotate 3).symm⟩

end QueryTree.Node
