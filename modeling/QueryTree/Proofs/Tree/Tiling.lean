import QueryTree.Proofs.Tree.Preorder

/-!
# Nodes that cover a text without gaps

The parts of a node cover its text one after the other: each part begins where
the part before it ends. From this alone every node of a tree denotes one piece
of the source, and the leaves spell the source.
-/

namespace QueryTree.Node

/-- Whether nodes cover a text one after the other, up to a rest: the first begins
where the text begins, each further one where the one before it ends, and the rest
is what follows the last. -/
def Tiles : Text → List Node → Text → Prop
  | t, [], rest => t = rest
  | t, n :: ns, rest => n.spelling ++ n.following = t ∧ Tiles n.following ns rest

theorem tiles_singleton {t rest : Text} {n : Node} :
    Tiles t [n] rest ↔ n.spelling ++ n.following = t ∧ n.following = rest :=
  Iff.rfl

theorem Tiles.append {t middle rest : Text} {ns ms : List Node} (h : Tiles t ns middle)
    (h' : Tiles middle ms rest) : Tiles t (ns ++ ms) rest := by
  induction ns generalizing t with
  | nil => exact h ▸ h'
  | cons n ns ih => exact ⟨h.1, ih h.2⟩

theorem Tiles.split {t rest : Text} {ns ms : List Node} (h : Tiles t (ns ++ ms) rest) :
    ∃ middle, Tiles t ns middle ∧ Tiles middle ms rest := by
  induction ns generalizing t with
  | nil => exact ⟨t, rfl, h⟩
  | cons n ns ih =>
      obtain ⟨middle, hns, hms⟩ := ih h.2
      exact ⟨middle, ⟨h.1, hns⟩, hms⟩

/-- Nodes may be taken for what they are made of. -/
theorem Tiles.flatMap {t rest : Text} {ns : List Node} {f : Node → List Node}
    (h : Tiles t ns rest)
    (hf : ∀ n ∈ ns, Tiles (n.spelling ++ n.following) (f n) n.following) :
    Tiles t (ns.flatMap f) rest := by
  induction ns generalizing t with
  | nil => exact h
  | cons n ns ih =>
      have hn := hf n List.mem_cons_self
      rw [h.1] at hn
      exact hn.append (ih h.2 fun m hm => hf m (List.mem_cons_of_mem n hm))

theorem Tiles.flatten_append {t rest : Text} {ns : List Node} (h : Tiles t ns rest) :
    (ns.map spelling).flatten ++ rest = t := by
  induction ns generalizing t with
  | nil => exact h.symm
  | cons n ns ih =>
      rw [List.map_cons, List.flatten_cons, List.append_assoc, ih h.2]
      exact h.1

/-- Every one of the nodes begins a suffix of the text. -/
theorem Tiles.suffix_of_mem {t rest : Text} {ns : List Node} (h : Tiles t ns rest)
    {n : Node} (hn : n ∈ ns) : n.spelling ++ n.following <:+ t := by
  induction ns generalizing t with
  | nil => simp at hn
  | cons m ms ih =>
      rcases List.mem_cons.mp hn with rfl | hn
      · exact h.1 ▸ List.suffix_rfl
      · exact (ih h.2 hn).trans (h.1 ▸ List.suffix_append m.spelling m.following)

theorem tiles_chainFrom {t rest : Text} {i : Nat} {ns : List Node} :
    Tiles t (chainFrom i ns) rest ↔ Tiles t ns rest := by
  induction ns generalizing t i with
  | nil => rfl
  | cons n ns ih => simp only [chainFrom, Tiles, ih]

theorem tiles_chain {t rest : Text} {ns : List Node} :
    Tiles t (chain ns) rest ↔ Tiles t ns rest :=
  tiles_chainFrom

/-- Whether the children of a node, if it has any, cover what it covers. -/
def Tiled (n : Node) : Prop :=
  n.children ≠ [] → Tiles (n.spelling ++ n.following) n.children n.following

theorem Tiled.spelling_eq {n : Node} (h : n.Tiled) (hchildren : n.children ≠ []) :
    n.spelling = (n.children.map spelling).flatten :=
  (List.append_cancel_right (h hchildren).flatten_append).symm

theorem Tiled.suffix_of_mem {n m : Node} (h : n.Tiled) (hm : m ∈ n.children) :
    m.spelling ++ m.following <:+ n.spelling ++ n.following :=
  (h (List.ne_nil_of_mem hm)).suffix_of_mem hm

/-- Every node of a tree begins a suffix of what the tree covers. -/
theorem Everywhere.suffix_of_mem {n : Node} (h : n.Everywhere Tiled) {m : Node}
    (hm : m ∈ n.preorder) : m.spelling ++ m.following <:+ n.spelling ++ n.following := by
  induction n using induction_children with
  | step n ih =>
      rcases mem_preorder_iff.mp hm with rfl | ⟨k, hk, hmk⟩
      · exact List.suffix_rfl
      · exact (ih k hk (h.child hk) hmk).trans (h.self.suffix_of_mem hk)

/-- The nodes without children, from left to right. -/
def leaves (n : Node) : List Node :=
  n.preorder.filter isLeaf

theorem leaves_of_isLeaf {n : Node} (h : n.children = []) : n.leaves = [n] := by
  simp [leaves, preorder_eq, h, preorderAll, isLeaf]

theorem leaves_of_children {n : Node} (h : n.children ≠ []) :
    n.leaves = n.children.flatMap leaves := by
  have hn : n.isLeaf = false := by simp [isLeaf, h]
  rw [leaves, preorder_eq, List.filter_cons_of_neg (by simp [hn]), preorderAll_eq_flatMap,
    List.filter_flatMap]
  rfl

theorem Everywhere.tiles_leaves {n : Node} (h : n.Everywhere Tiled) :
    Tiles (n.spelling ++ n.following) n.leaves n.following := by
  induction n using induction_children with
  | step n ih =>
      by_cases hn : n.children = []
      · rw [leaves_of_isLeaf hn]
        exact ⟨rfl, rfl⟩
      · rw [leaves_of_children hn]
        exact (h.self hn).flatMap fun m hm => ih m hm (h.child hm)

/-- The leaves of a tree spell what the tree covers. -/
theorem Everywhere.flatten_leaves {n : Node} (h : n.Everywhere Tiled) :
    (n.leaves.map spelling).flatten = n.spelling := by
  induction n using induction_children with
  | step n ih =>
      by_cases hn : n.children = []
      · simp [leaves_of_isLeaf hn]
      · have hparts : ∀ m ∈ n.children, (m.leaves.map spelling).flatten = m.spelling :=
          fun m hm => ih m hm (h.child hm)
        rw [leaves_of_children hn, h.self.spelling_eq hn, List.map_flatMap, List.flatMap_def,
          List.flatten_flatten, List.map_map]
        exact congrArg List.flatten (List.map_congr_left hparts)

theorem holdsReplacement_iff {n : Node} :
    n.holdsReplacement = true ↔ ∃ m ∈ n.preorder, m.replacement.isSome := by
  have hall : ∀ ns : List Node, anyHoldsReplacement ns = ns.any holdsReplacement := by
    intro ns
    induction ns with
    | nil => rfl
    | cons n ns ih => simp [anyHoldsReplacement, ih]
  induction n using induction_children with
  | step n ih =>
      obtain ⟨c, s, f, p, q, r, children⟩ := n
      rw [holdsReplacement, hall, Bool.or_eq_true, List.any_eq_true]
      constructor
      · rintro (h | ⟨k, hk, hrep⟩)
        · exact ⟨_, self_mem_preorder _, h⟩
        · obtain ⟨m, hm, hrep⟩ := (ih k hk).mp hrep
          exact ⟨m, mem_preorder_iff.mpr (Or.inr ⟨k, hk, hm⟩), hrep⟩
      · rintro ⟨m, hm, hrep⟩
        rcases mem_preorder_iff.mp hm with rfl | ⟨k, hk, hmk⟩
        · exact Or.inl hrep
        · exact Or.inr ⟨k, hk, (ih k hk).mpr ⟨m, hmk, hrep⟩⟩

theorem holdsReplacement_eq_false_iff {n : Node} :
    n.holdsReplacement = false ↔ n.Everywhere fun m => m.replacement = none := by
  rw [← Bool.not_eq_true, holdsReplacement_iff]
  simp [Everywhere]

/-- A tree that nothing has been written over reads as it was spelled. -/
theorem text_eq_spelling {n : Node} (h : n.Everywhere fun m => m.replacement = none) :
    n.text = n.spelling := by
  rw [text, holdsReplacement_eq_false_iff.mpr h]
  rfl

/-- The leaves of a tree that nothing has been written over fold to its spelling. -/
theorem fold_eq_spelling {n : Node} (htiled : n.Everywhere Tiled)
    (h : n.Everywhere fun m => m.replacement = none) : n.fold = n.spelling := by
  induction n using induction_children with
  | step n ih =>
      by_cases hn : n.children = []
      · exact fold_of_isLeaf h.self hn
      · rw [fold_of_children h.self hn, htiled.self.spelling_eq hn]
        exact congrArg List.flatten (List.map_congr_left fun m hm =>
          ih m hm (htiled.child hm) (h.child hm))

/-- The text of a tree is always the one read off its topmost replacements and its
leaves. -/
theorem text_eq_fold {n : Node} (h : n.Everywhere Tiled) : n.text = n.fold := by
  cases hn : n.holdsReplacement with
  | false =>
      have hunwritten := holdsReplacement_eq_false_iff.mp hn
      rw [text_eq_spelling hunwritten, fold_eq_spelling h hunwritten]
  | true => rw [text, if_pos hn]

end QueryTree.Node
