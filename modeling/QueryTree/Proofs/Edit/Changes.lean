import Mathlib.Data.List.Pairwise
import QueryTree.Proofs.Edit.Single

/-!
# Changes apart from each other

Nodes of which none is below another can be changed one after the other in any order. Each
change finds its node as it was at the start, and the nodes that are not changed, and what
is below them, stay as they are.
-/

namespace QueryTree

namespace Path

variable {p q : Path}

/-- Whether neither of two paths goes on from the other. -/
abbrev Apart (p q : Path) : Prop :=
  ¬p <+: q ∧ ¬q <+: p

/-- A path does not come before one that it goes on from. -/
theorem not_precedes_of_prefix (h : p <+: q) : ¬Precedes q p := by
  induction q generalizing p with
  | nil =>
      obtain rfl := List.prefix_nil.mp h
      exact nofun
  | cons i q ih =>
      rcases List.prefix_cons_iff.mp h with rfl | ⟨p, rfl, hp⟩
      · exact nofun
      · intro hlex
        cases hlex with
        | cons hlex => exact ih hp hlex
        | rel hlt => exact Nat.lt_irrefl i hlt

theorem Precedes.ne (h : Precedes p q) : p ≠ q :=
  fun heq => not_precedes_of_prefix List.prefix_rfl (heq ▸ h)

end Path

namespace Node

variable {α : Type} {change : α → Node → Node} {changes changes' : List (Path × α)}
variable {f g : Node → Node} {p q : Path} {n : Node}

/-- Changes apart from each other can be made in either order. -/
theorem modifyAt_comm (h : Path.Apart p q) :
    (n.modifyAt f p).modifyAt g q = (n.modifyAt g q).modifyAt f p := by
  induction p generalizing n q with
  | nil => exact absurd List.nil_prefix h.1
  | cons i p ih =>
      cases q with
      | nil => exact absurd List.nil_prefix h.2
      | cons j q =>
          simp only [modifyAt, mk.injEq, true_and]
          by_cases hij : i = j
          · subst hij
            have hinner : Path.Apart p q := by
              simpa [Path.Apart, List.cons_prefix_cons] using h
            rw [List.modify_modify_eq, List.modify_modify_eq]
            congr 1
            exact funext fun k => ih hinner
          · exact List.modify_modify_ne _ _ _ hij

/-- Changes the nodes at some paths, one after the other. -/
def changeEach (change : α → Node → Node) (changes : List (Path × α)) (n : Node) : Node :=
  changes.foldl (fun n c => n.modifyAt (change c.2) c.1) n

@[simp] theorem changeEach_nil (n : Node) : n.changeEach change [] = n := rfl

@[simp] theorem changeEach_cons (path : Path) (a : α) (n : Node) :
    n.changeEach change ((path, a) :: changes) =
      (n.modifyAt (change a) path).changeEach change changes := rfl

/-- Away from the changes the tree stays as it is. -/
theorem at?_changeEach_of_apart (h : ∀ path ∈ changes.map Prod.fst, Path.Apart path p) :
    (n.changeEach change changes).at? p = n.at? p := by
  induction changes generalizing n with
  | nil => rfl
  | cons c changes ih =>
      obtain ⟨hfirst, hrest⟩ := List.forall_mem_cons.mp h
      rw [changeEach_cons, ih hrest, at?_modifyAt_of_apart hfirst.1 hfirst.2]

/-- A node that is not changed itself stays as it is, apart from the nodes below it. -/
theorem own_at?_changeEach (hkept : ∀ a x, (change a x).children = x.children)
    (h : p ∉ changes.map Prod.fst) :
    ((n.changeEach change changes).at? p).map own = (n.at? p).map own := by
  induction changes generalizing n with
  | nil => rfl
  | cons c changes ih =>
      rw [List.map_cons, List.mem_cons, not_or] at h
      rw [changeEach_cons, ih h.2, own_at?_modifyAt (hkept c.2) h.1]

/-- A change among others finds its node as it was at the start. -/
theorem at?_changeEach (hchanges : (changes.map Prod.fst).Pairwise Path.Apart) {path : Path}
    {a : α} (h : (path, a) ∈ changes) :
    (n.changeEach change changes).at? path = (n.at? path).map (change a) := by
  induction changes generalizing n with
  | nil => cases h
  | cons c changes ih =>
      obtain ⟨hfirst, hrest⟩ := List.pairwise_cons.mp hchanges
      rw [changeEach_cons]
      rcases List.mem_cons.mp h with rfl | h
      · rw [at?_changeEach_of_apart fun q hq => (hfirst q hq).symm, at?_modifyAt]
      · have hpath := hfirst path (List.mem_map_of_mem h)
        rw [ih hrest h, at?_modifyAt_of_apart hpath.1 hpath.2]

/-- The order of changes apart from each other does not matter. -/
theorem changeEach_perm (hchanges : (changes.map Prod.fst).Pairwise Path.Apart)
    (h : changes.Perm changes') : n.changeEach change changes = n.changeEach change changes' := by
  have : Std.Symm fun c d : Path × α => Path.Apart c.1 d.1 := ⟨fun _ _ hcd => hcd.symm⟩
  have happart := (List.pairwise_map.mp hchanges).forall
  refine h.foldl_eq' (fun c hc d hd k => ?_) n
  by_cases hcd : c = d
  · rw [hcd]
  · exact modifyAt_comm (happart hc hd hcd)

end Node

end QueryTree
