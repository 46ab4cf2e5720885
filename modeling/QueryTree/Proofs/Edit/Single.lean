import QueryTree.Proofs.Edit.Order
import QueryTree.Proofs.Edit.Session

/-!
# Edits of one node

Replacing a node and changing its text write over one node: the one at the given position
among the open nodes of its category. All other nodes stay as they are. The text of the
tree is the one before with the text of this node exchanged, and of each category the open
nodes at and below it are closed. Where there is no open node at the position, nothing
happens.
-/

namespace QueryTree.Node

variable {c : Category} {n m x y : Node} {path : Path} {f : Node → Node}

section Around

/-- The texts to the left of the node at a path. -/
def textBefore : Path → Node → Text
  | [], _ => []
  | i :: path, n =>
    ((n.children.take i).map text).flatten ++ n.children[i]?.elim [] (textBefore path)

/-- The texts to the right of the node at a path. -/
def textAfter : Path → Node → Text
  | [], _ => []
  | i :: path, n =>
    n.children[i]?.elim [] (textAfter path) ++ ((n.children.drop (i + 1)).map text).flatten

/-- Changing a node changes what its tree reads only where the node stands. -/
theorem OpenAt.fold_modifyAt (h : OpenAt n path x) (ht : n.Everywhere Tiled) (f : Node → Node) :
    (n.modifyAt f path).fold = n.textBefore path ++ (f x).fold ++ n.textAfter path := by
  induction h with
  | here hopen => simp [textBefore, textAfter, modifyAt]
  | @child n k x i path hopen hk hx ih =>
      obtain ⟨hi, rfl⟩ := List.getElem?_eq_some_iff.mp hk
      have hnone : (n.modifyAt f (i :: path)).replacement = none := by
        simpa [Node.isOverwritten, modifyAt] using hopen
      have hchildren : (n.modifyAt f (i :: path)).children =
          n.children.take i ++ modifyAt f path n.children[i] :: n.children.drop (i + 1) :=
        List.modify_eq_take_cons_drop hi
      have htexts : ∀ ms : List Node, ms ⊆ n.children → ms.map fold = ms.map text :=
        fun ms hms => List.map_congr_left fun m hm => (text_eq_fold (ht.child (hms hm))).symm
      rw [fold_of_children hnone (by simp [hchildren]), hchildren, List.map_append, List.map_cons,
        htexts _ (List.take_subset i _), htexts _ (List.drop_subset (i + 1) _),
        ih (ht.child (List.getElem_mem hi)), textBefore, textAfter, hk]
      simp only [Option.elim_some, List.flatten_append, List.flatten_cons, List.append_assoc]

/-- The text of a tree around one of its open nodes. -/
theorem OpenAt.text_eq (h : OpenAt n path x) (ht : n.Everywhere Tiled) :
    n.text = n.textBefore path ++ x.text ++ n.textAfter path := by
  have hx : x.Everywhere Tiled := ht.of_mem (mem_preorder_iff_at?.mpr ⟨path, h.at?⟩)
  have hfold := h.fold_modifyAt ht id
  rw [modifyAt_id] at hfold
  rw [text_eq_fold ht, text_eq_fold hx]
  exact hfold

end Around

section Others

/-- What a node is apart from the nodes below it, and the number of its children. -/
def own (n : Node) : Node × Nat :=
  ({ n with children := [] }, n.children.length)

/-- Changing a node leaves all others as they are. -/
theorem own_at?_modifyAt {p : Path} (hf : ∀ x, (f x).children = x.children) (hp : p ≠ path) :
    ((n.modifyAt f path).at? p).map own = (n.at? p).map own := by
  induction path generalizing n p with
  | nil =>
      cases p with
      | nil => exact absurd rfl hp
      | cons j p => rw [modifyAt, at?_cons, at?_cons, hf]
  | cons i path ih =>
      cases p with
      | nil => simp [own, modifyAt]
      | cons j p =>
          rw [at?_cons, at?_cons, children_modifyAt_cons]
          by_cases hij : i = j
          · subst hij
            have hp : p ≠ path := fun h => hp (h ▸ rfl)
            rw [List.getElem?_modify_eq]
            cases n.children[i]? with
            | none => rfl
            | some k => exact ih hp
          · rw [List.getElem?_modify_ne _ _ hij]

theorem openPathsFrom_modify {ns : List Node} {k : Node} {i j : Nat} {g : Node → Node}
    (hk : ns[i]? = some k)
    (hg : (g k).openPaths c = (k.openPaths c).filter fun p => ¬path <+: p) :
    openPathsFrom c j (ns.modify i g) =
      (openPathsFrom c j ns).filter fun p => ¬(j + i) :: path <+: p := by
  induction ns generalizing i j with
  | nil => cases hk
  | cons m ns ih =>
      rw [openPathsFrom, List.filter_append, List.filter_map]
      cases i with
      | zero =>
          obtain rfl := Option.some.inj hk
          rw [List.modify_zero_cons, openPathsFrom, hg]
          congr 1
          · congr 1
            exact List.filter_congr fun p _ => by simp [List.cons_prefix_cons]
          · refine (List.filter_eq_self.mpr fun p hp => ?_).symm
            obtain ⟨l, _, inner, _, _, rfl⟩ := mem_openPathsFrom.mp hp
            have hne : j ≠ j + 1 + l := by omega
            simp [List.cons_prefix_cons, hne]
      | succ i =>
          rw [List.modify_succ_cons, openPathsFrom, ih hk, Nat.add_assoc, Nat.add_comm 1 i]
          congr 1
          congr 1
          exact (List.filter_eq_self.mpr fun p _ => by simp [List.cons_prefix_cons]).symm

/-- Writing over an open node closes the paths that go on from its own. -/
theorem OpenAt.openPaths_modifyAt (h : OpenAt n path x) (hover : (f x).isOverwritten = true) :
    (n.modifyAt f path).openPaths c = (n.openPaths c).filter fun p => ¬path <+: p := by
  induction h with
  | here hopen => simp [modifyAt, openPaths_of_overwritten hover]
  | @child n k x i path hopen hk hx ih =>
      have hopen' : (n.modifyAt f (i :: path)).isOverwritten = false := hopen
      have hcategory : (n.modifyAt f (i :: path)).category = n.category := rfl
      have hchildren := openPathsFrom_modify (j := 0) hk (ih hover)
      rw [Nat.zero_add] at hchildren
      rw [openPaths_of_open hopen', openPaths_of_open hopen, hcategory, children_modifyAt_cons,
        List.filter_append, hchildren]
      congr 1
      split <;> simp

end Others

/-- What an edit of one node does to a tree. It turns the node `x` at a path into `y`, which
has a text written over it. -/
structure ChangedAt (path : Path) (x y n m : Node) : Prop where
  before : n.at? path = some x
  after : m.at? path = some y
  others : ∀ p, p ≠ path → (m.at? p).map own = (n.at? p).map own
  around : n.text = n.textBefore path ++ x.text ++ n.textAfter path
  text : ∀ t, y.replacement = some t → m.text = n.textBefore path ++ t ++ n.textAfter path
  countOpen : ∀ c, m.countOpen c + x.countOpen c = n.countOpen c

theorem OpenAt.changedAt {literal : Prop} (h : OpenAt n path x) (ht : n.Everywhere Tiled)
    (hf : ∀ x, x.isOverwritten = false → RevisedTo literal x (f x))
    (hchildren : ∀ x, (f x).children = x.children) (hover : (f x).isOverwritten = true) :
    ChangedAt path x (f x) n (n.modifyAt f path) where
  before := h.at?
  after := by rw [at?_modifyAt, h.at?, Option.map_some]
  others _ hp := own_at?_modifyAt hchildren hp
  around := h.text_eq ht
  text t hreplacement := by
    have htiled := ht.tiled_of_revises (h.revises (hf x h.isOverwritten) (hchildren x))
    rw [text_eq_fold htiled, h.fold_modifyAt ht, fold_of_replacement hreplacement]
  countOpen _ := h.countOpen_modifyAt hover

variable {σ : Type} {i : Nat}

theorem replace_of_select {value : Value} (h : n.select c i = .ok path) :
    n.replace c value i = .ok (n.modifyAt (overwriteWithLiteral value) path) :=
  replace_eq_ok.mpr ⟨path, h, rfl⟩

theorem replaceWith_of_select {mutator : Mutator σ} {s : σ} (h : n.select c i = .ok path)
    (hx : n.at? path = some x) :
    n.replaceWith c i mutator s =
      .ok (n.modifyAt (overwrite (mutator s x.text).1) path, (mutator s x.text).2) :=
  replaceWith_eq_ok.mpr ⟨path, h, by rw [hx]; rfl, by rw [hx]; rfl⟩

/-- Replacing a node and changing its text write over one node. The open nodes of a category
are those that neither they nor a node above them have been overwritten. Their paths are in
document order, there are as many as are counted, and a search that counts down finds the
one at a position. Past the last of them both edits fail and leave the tree as it is.
Otherwise the node at the position becomes an overwritten literal, or gets the text that is
made of its current one and keeps its category, and no other node changes. -/
theorem edits_one_node (h : n.Reachable) (c : Category) (i : Nat) :
    (n.openPaths c).Pairwise Path.Precedes ∧
      (∀ path, path ∈ n.openPaths c ↔ ∃ x, n.at? path = some x ∧ x.category = c ∧
        ∀ p k, p <+: path → n.at? p = some k → k.isOverwritten = false) ∧
      (n.openPaths c).length = n.countOpen c ∧
      n.seek c i = pathOrRest (n.openPaths c) i ∧
      (n.countOpen c ≤ i → ∀ {σ : Type} (s : σ) (e : Edit σ),
        ((∃ value, e = .replace c value i) ∨ ∃ mutator, e = .replaceWith c i mutator) →
          e.attempt (n, s) = .error (if n.countOpen c = 0 then .noMatch c
            else .indexOutOfRange c i (n.countOpen c)) ∧
          e.apply (n, s) = (n, s)) ∧
      (i < n.countOpen c → ∃ path x, (n.openPaths c)[i]? = some path ∧
        (∀ value, ∃ m, n.replace c value i = .ok m ∧
          ChangedAt path x { x with
            category := .literal, replacement := some value.literal } n m) ∧
        ∀ {σ : Type} (mutator : Mutator σ) (s : σ), ∃ m,
          n.replaceWith c i mutator s = .ok (m, (mutator s x.text).2) ∧
            ChangedAt path x { x with replacement := some (mutator s x.text).1 } n m) := by
  refine ⟨openPaths_pairwise c n, fun path => mem_openPaths_iff_at?, length_openPaths c n,
    seek_eq c n i, fun hi σ s e he => ?_, fun hi => ?_⟩
  · have hattempt : e.attempt (n, s) = .error (if n.countOpen c = 0 then .noMatch c
        else .indexOutOfRange c i (n.countOpen c)) := by
      rcases he with ⟨value, rfl⟩ | ⟨mutator, rfl⟩
      · rw [Edit.attempt, replace, select_eq_error hi]
        rfl
      · rw [Edit.attempt, replaceWith, select_eq_error hi]
        rfl
    exact ⟨hattempt, by rw [Edit.apply, hattempt]⟩
  · obtain ⟨path, hselect⟩ := exists_select_iff.mpr hi
    obtain ⟨x, hx, _⟩ := exists_openAt_of_select hselect
    refine ⟨path, x, select_eq_ok.mp hselect, fun value => ?_, fun mutator s => ?_⟩
    · exact ⟨_, replace_of_select hselect, hx.changedAt h.tiled
        (fun _ => revisedTo_overwriteWithLiteral value) (fun _ => rfl) rfl⟩
    · exact ⟨_, replaceWith_of_select hselect hx.at?, hx.changedAt h.tiled
        (fun _ => revisedTo_overwrite _) (fun _ => rfl) rfl⟩

/-- The inner one of two commands has been written over, so only the outer one is open. -/
theorem edits_one_node_nested :
    ∃ root n, parse 2 "SELECT f(g(a)) FROM t".toList = .ok root ∧
      (Session.run [.replaceWith .command 1 fun _ text => (text.reverse, ())]
        (root, ())).1 = n ∧ n.Reachable ∧
      (∃ (path : Path) (x : Node), (n.openPaths .command)[0]? = some path ∧ ∀ value, ∃ m,
        n.replace .command value 0 = .ok m ∧
          m.text = n.textBefore path ++ value.literal ++ n.textAfter path ∧
          m.countOpen .command + x.countOpen .command = n.countOpen .command) ∧
      Edit.attempt (.replace .command .null 1) (n, ()) =
        .error (.indexOutOfRange .command 1 1) := by
  obtain ⟨root, hroot⟩ := exists_tree_of_isOk 2 "SELECT f(g(a)) FROM t".toList
    (by decide +kernel)
  have hmap : (parse 2 "SELECT f(g(a)) FROM t".toList).map (fun root =>
      (Session.run [.replaceWith .command 1 fun _ text => (text.reverse, ())]
        (root, ())).1.countOpen .command) = .ok 1 := by
    decide +kernel
  rw [hroot] at hmap
  generalize hn : (Session.run [.replaceWith .command 1 fun _ text => (text.reverse, ())]
    (root, ())).1 = n
  have hcount : n.countOpen .command = 1 := hn ▸ Except.ok.inj hmap
  have h : n.Reachable := ⟨Unit, 2, _, root, _, (), hroot, hn⟩
  obtain ⟨_, _, _, _, _, hchanged⟩ := edits_one_node h .command 0
  obtain ⟨path, x, hpath, hreplace, _⟩ := hchanged (by omega)
  refine ⟨root, n, hroot, hn, h, ⟨path, x, hpath, fun value => ?_⟩, ?_⟩
  · obtain ⟨m, hm, hat⟩ := hreplace value
    exact ⟨m, hm, hat.text _ rfl, hat.countOpen .command⟩
  · obtain ⟨_, _, _, _, hpast, _⟩ := edits_one_node h .command 1
    have herror := (hpast (by omega) () (.replace .command .null 1) (Or.inl ⟨.null, rfl⟩)).1
    rwa [hcount] at herror

end QueryTree.Node
