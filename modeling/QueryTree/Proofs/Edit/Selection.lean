import QueryTree.Proofs.Edit.Revision

/-!
# Selected nodes

An edit selects open nodes of its category: those that neither they nor a node above
them have been overwritten. Writing over a selected node revises the tree, and there is
one open node of its category less.
-/

namespace QueryTree.Node

/-- Whether `x` stands at a path of a tree and nothing on the way to it has been
overwritten, nor it itself. -/
inductive OpenAt : Node → Path → Node → Prop where
  | here {n : Node} (hopen : n.isOverwritten = false) : OpenAt n [] n
  | child {n k x : Node} {i : Nat} {path : Path} (hopen : n.isOverwritten = false)
      (hk : n.children[i]? = some k) (hx : OpenAt k path x) : OpenAt n (i :: path) x

variable {n m x : Node} {path : Path} {c : Category} {literals : Path → Prop}

theorem OpenAt.at? (h : OpenAt n path x) : n.at? path = some x := by
  induction h with
  | here hopen => rfl
  | child hopen hk _ ih => rw [at?_cons, hk, Option.bind_some, ih]

/-- A node is open if neither it nor a node above it has been overwritten. -/
theorem openAt_iff : OpenAt n path x ↔ n.at? path = some x ∧
    ∀ p k, p <+: path → n.at? p = some k → k.isOverwritten = false := by
  constructor
  · intro h
    refine ⟨h.at?, fun p k hp hk => ?_⟩
    induction h generalizing p with
    | here hopen =>
        obtain rfl := List.prefix_nil.mp hp
        obtain rfl := Option.some.inj hk
        exact hopen
    | @child n m x i path hopen hm hx ih =>
        rcases List.prefix_cons_iff.mp hp with rfl | ⟨p, rfl, hinner⟩
        · obtain rfl := Option.some.inj hk
          exact hopen
        · rw [at?_cons, hm] at hk
          exact ih p hinner hk
  · rintro ⟨hx, hopen⟩
    induction path generalizing n with
    | nil =>
        obtain rfl := Option.some.inj hx
        exact .here (hopen [] n List.nil_prefix rfl)
    | cons i path ih =>
        rw [at?_cons] at hx
        obtain ⟨k, hk, hx⟩ := Option.bind_eq_some_iff.mp hx
        refine .child (hopen [] n List.nil_prefix rfl) hk (ih hx fun p m hp hm => ?_)
        refine hopen (i :: p) m (List.cons_prefix_cons.mpr ⟨rfl, hp⟩) ?_
        rw [at?_cons, hk]
        exact hm

theorem mem_openPathsFrom {i : Nat} {ns : List Node} :
    path ∈ openPathsFrom c i ns ↔
      ∃ j k inner, ns[j]? = some k ∧ inner ∈ k.openPaths c ∧ path = (i + j) :: inner := by
  induction ns generalizing i with
  | nil => simp [openPathsFrom]
  | cons n ns ih =>
      rw [openPathsFrom, List.mem_append, List.mem_map, ih]
      constructor
      · rintro (⟨inner, hinner, rfl⟩ | ⟨j, k, inner, hk, hinner, rfl⟩)
        · exact ⟨0, n, inner, rfl, hinner, rfl⟩
        · exact ⟨j + 1, k, inner, hk, hinner, by rw [Nat.add_assoc, Nat.add_comm 1 j]⟩
      · rintro ⟨j, k, inner, hk, hinner, rfl⟩
        cases j with
        | zero =>
            obtain rfl := Option.some.inj hk
            exact Or.inl ⟨inner, hinner, rfl⟩
        | succ j =>
            exact Or.inr ⟨j, k, inner, hk, hinner, by rw [Nat.add_assoc, Nat.add_comm 1 j]⟩

/-- The open paths of a category lead to the nodes of this category that neither they nor
a node above them have been overwritten. -/
theorem mem_openPaths_iff :
    path ∈ n.openPaths c ↔ ∃ x, OpenAt n path x ∧ x.category = c := by
  induction n using induction_children generalizing path with
  | step n ih =>
      cases hn : n.isOverwritten with
      | true =>
          rw [openPaths_of_overwritten hn]
          constructor
          · exact nofun
          · rintro ⟨x, hx, _⟩
            cases hx with
            | here hopen => rw [hn] at hopen; cases hopen
            | child hopen _ _ => rw [hn] at hopen; cases hopen
      | false =>
          rw [openPaths_of_open hn, List.mem_append, mem_openPathsFrom]
          constructor
          · rintro (hself | ⟨i, k, inner, hk, hinner, rfl⟩)
            · split at hself
              next hc =>
                obtain rfl := List.mem_singleton.mp hself
                exact ⟨n, .here hn, hc⟩
              next => cases hself
            · obtain ⟨x, hx, hc⟩ := (ih k (List.mem_of_getElem? hk)).mp hinner
              rw [Nat.zero_add]
              exact ⟨x, .child hn hk hx, hc⟩
          · rintro ⟨x, hx, hc⟩
            cases hx with
            | here _ =>
                rw [if_pos hc]
                exact Or.inl (List.mem_singleton_self _)
            | @child _ k _ i inner _ hk hx =>
                exact Or.inr ⟨i, k, inner, hk,
                  (ih k (List.mem_of_getElem? hk)).mpr ⟨x, hx, hc⟩, by rw [Nat.zero_add]⟩

/-- The open paths of a category, said without a walk through the tree. -/
theorem mem_openPaths_iff_at? :
    path ∈ n.openPaths c ↔ ∃ x, n.at? path = some x ∧ x.category = c ∧
      ∀ p k, p <+: path → n.at? p = some k → k.isOverwritten = false := by
  rw [mem_openPaths_iff]
  exact exists_congr fun x => by rw [openAt_iff, and_right_comm, and_assoc]

/-- What is selected is open. -/
theorem exists_openAt_of_select {index : Nat} (h : n.select c index = .ok path) :
    ∃ x, OpenAt n path x ∧ x.category = c :=
  mem_openPaths_iff.mp (List.mem_of_getElem? (select_eq_ok.mp h))

/-- Changing a node is a revision of the tree if it is one of the node and leaves its
children alone. -/
theorem OpenAt.revises {f : Node → Node} {literal : Prop} (h : OpenAt n path x)
    (hf : RevisedTo literal x (f x)) (hchildren : (f x).children = x.children) :
    Revises (fun p => literal ∧ p = path) n (n.modifyAt f path) := by
  induction h with
  | @here n hopen =>
      apply Revises.of_children
      · exact hf.congr (by simp)
      · intro i
        rw [modifyAt, hchildren]
        cases n.children[i]? with
        | none => exact .none
        | some k => exact .some (.refl k (by simp))
  | @child n k x i path hopen hk hx ih =>
      apply Revises.of_children
      · refine ⟨⟨rfl, rfl, rfl, rfl, ?_⟩, by simp, fun _ => rfl, fun hn => ?_⟩
        · rw [children_modifyAt_cons, List.length_modify]
        · rw [hopen] at hn
          cases hn
      · intro j
        rw [children_modifyAt_cons]
        by_cases hij : i = j
        · subst hij
          rw [List.getElem?_modify_eq, hk]
          exact .some ((ih hf hchildren).congr fun p => by simp)
        · rw [List.getElem?_modify_ne _ _ hij]
          cases n.children[j]? with
          | none => exact .none
          | some k => exact .some (.refl k (by simp [Ne.symm hij]))

theorem OpenAt.isOverwritten (h : OpenAt n path x) : x.isOverwritten = false := by
  induction h with
  | here hopen => exact hopen
  | child _ _ _ ih => exact ih

theorem OpenAt.countOpen_pos (h : OpenAt n path x) (hc : x.category = c) :
    0 < n.countOpen c := by
  rw [← length_openPaths]
  exact List.length_pos_of_mem (mem_openPaths_iff.mpr ⟨x, h, hc⟩)

theorem countOpenAll_modify {ns : List Node} {k : Node} {i : Nat} {g : Node → Node}
    (h : ns[i]? = some k) :
    countOpenAll c (ns.modify i g) + k.countOpen c = countOpenAll c ns + (g k).countOpen c := by
  induction ns generalizing i with
  | nil => cases h
  | cons m ns ih =>
      cases i with
      | zero =>
          obtain rfl := Option.some.inj h
          rw [List.modify_zero_cons, countOpenAll, countOpenAll]
          omega
      | succ i =>
          have hrest := ih h
          rw [List.modify_succ_cons, countOpenAll, countOpenAll]
          omega

/-- Writing over an open node closes the open nodes at and below it, and no others. -/
theorem OpenAt.countOpen_modifyAt {f : Node → Node} (h : OpenAt n path x)
    (hover : (f x).isOverwritten = true) :
    (n.modifyAt f path).countOpen c + x.countOpen c = n.countOpen c := by
  induction h with
  | here hopen => rw [modifyAt, countOpen_of_overwritten hover, Nat.zero_add]
  | @child n k x i path hopen hk hx ih =>
      have hopen' : (n.modifyAt f (i :: path)).isOverwritten = false := hopen
      have hchildren := countOpenAll_modify (c := c) (g := modifyAt f path) hk
      have hchild := ih hover
      have hcategory : (n.modifyAt f (i :: path)).category = n.category := rfl
      rw [countOpen_of_open hopen', countOpen_of_open hopen, hcategory, children_modifyAt_cons]
      omega

end QueryTree.Node
