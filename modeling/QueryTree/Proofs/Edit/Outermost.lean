import QueryTree.Proofs.Edit.Revision

/-!
# Writing over all nodes of a category

One pass over the tree writes over the outermost open nodes of a category. It revises
the tree without a new literal. It counts no node exactly if there was none to write over,
and it leaves none behind.
-/

namespace QueryTree.Node

variable {σ : Type} {c : Category} {mutator : Mutator σ} {n : Node} {s : σ}

theorem overwriteOutermost_of_overwritten (h : n.isOverwritten = true) :
    overwriteOutermost c mutator n s = (n, 0, s) := by
  obtain ⟨_, _, _, _, _, _, _⟩ := n
  rw [overwriteOutermost]
  exact if_pos h

theorem overwriteOutermost_of_eq (h : n.isOverwritten = false) (hc : n.category = c) :
    overwriteOutermost c mutator n s =
      (n.overwrite (mutator s n.text).1, 1, (mutator s n.text).2) := by
  obtain ⟨_, _, _, _, _, _, _⟩ := n
  rw [overwriteOutermost, if_pos hc]
  exact if_neg (Bool.eq_false_iff.mp h)

theorem overwriteOutermost_of_inner (h : n.isOverwritten = false) (hc : n.category ≠ c) :
    overwriteOutermost c mutator n s =
      ({ n with children := (overwriteOutermostAll c mutator n.children s).1 },
        (overwriteOutermostAll c mutator n.children s).2) := by
  obtain ⟨_, _, _, _, _, _, _⟩ := n
  rw [overwriteOutermost, if_neg hc]
  exact if_neg (Bool.eq_false_iff.mp h)

/-- The nodes that the pass makes of a list of trees, one after the other. -/
theorem overwriteOutermostAll_forall₂ {R : Node → Node → Prop} {ns : List Node} {s : σ}
    (h : ∀ m ∈ ns, ∀ s, R m (overwriteOutermost c mutator m s).1) :
    List.Forall₂ R ns (overwriteOutermostAll c mutator ns s).1 := by
  induction ns generalizing s with
  | nil => exact .nil
  | cons m ns ih =>
      rw [overwriteOutermostAll]
      exact .cons (h m List.mem_cons_self s) (ih fun k hk => h k (List.mem_cons_of_mem m hk))

/-- The pass revises the tree and turns no node into a literal. -/
theorem overwriteOutermost_revises (c : Category) (mutator : Mutator σ) (n : Node) (s : σ) :
    Revises (fun _ => False) n (overwriteOutermost c mutator n s).1 := by
  induction n using induction_children generalizing s with
  | step n ih =>
      cases hn : n.isOverwritten with
      | true =>
          rw [overwriteOutermost_of_overwritten hn]
          exact .refl n fun _ => not_false
      | false =>
          by_cases hc : n.category = c
          · rw [overwriteOutermost_of_eq hn hc]
            apply Revises.of_children (revisedTo_overwrite _ hn)
            intro i
            rw [overwrite]
            cases n.children[i]? with
            | none => exact .none
            | some k => exact .some (.refl k fun _ => not_false)
          · rw [overwriteOutermost_of_inner hn hc]
            have hchildren := overwriteOutermostAll_forall₂ (s := s) ih
            apply Revises.of_forall₂ _ hchildren
            exact ⟨⟨rfl, rfl, rfl, rfl, hchildren.length_eq.symm⟩, nofun, fun _ => rfl,
              fun h => by rw [hn] at h; cases h⟩

theorem countOpenAll_eq_zero {ns ms : List Node}
    (h : List.Forall₂ (fun _ m => m.countOpen c = 0) ns ms) : countOpenAll c ms = 0 := by
  induction h with
  | nil => rfl
  | cons hm _ ih => rw [countOpenAll, hm, ih]

/-- No open node of the category is left. -/
theorem countOpen_overwriteOutermost (c : Category) (mutator : Mutator σ) (n : Node) (s : σ) :
    (overwriteOutermost c mutator n s).1.countOpen c = 0 := by
  induction n using induction_children generalizing s with
  | step n ih =>
      cases hn : n.isOverwritten with
      | true =>
          rw [overwriteOutermost_of_overwritten hn]
          exact countOpen_of_overwritten hn
      | false =>
          by_cases hc : n.category = c
          · rw [overwriteOutermost_of_eq hn hc]
            exact countOpen_of_overwritten rfl
          · have hchildren := overwriteOutermostAll_forall₂ (R := fun _ m => m.countOpen c = 0)
              (s := s) ih
            have hinner : ({ n with
                children := (overwriteOutermostAll c mutator n.children s).1 } :
                Node).isOverwritten = false := hn
            rw [overwriteOutermost_of_inner hn hc, countOpen_of_open hinner, if_neg hc,
              Nat.zero_add]
            exact countOpenAll_eq_zero hchildren

/-- The pass counts at most the nodes that were open. -/
theorem count_overwriteOutermost_le (c : Category) (mutator : Mutator σ) (n : Node) (s : σ) :
    (overwriteOutermost c mutator n s).2.1 ≤ n.countOpen c := by
  induction n using induction_forest
      (fun ns => ∀ s, (overwriteOutermostAll c mutator ns s).2.1 ≤ countOpenAll c ns)
      generalizing s with
  | nil s => exact Nat.le_refl 0
  | cons m ns hm ih s =>
      rw [overwriteOutermostAll, countOpenAll]
      exact Nat.add_le_add (hm s) (ih _)
  | step n ih =>
      cases hn : n.isOverwritten with
      | true =>
          rw [overwriteOutermost_of_overwritten hn]
          exact Nat.zero_le _
      | false =>
          by_cases hc : n.category = c
          · rw [overwriteOutermost_of_eq hn hc, countOpen_of_open hn, if_pos hc]
            exact Nat.le_add_right 1 _
          · rw [overwriteOutermost_of_inner hn hc, countOpen_of_open hn, if_neg hc, Nat.zero_add]
            exact ih s

end QueryTree.Node
