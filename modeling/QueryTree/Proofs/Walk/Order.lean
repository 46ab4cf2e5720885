import QueryTree.Proofs.Edit.Changes
import QueryTree.Proofs.Walk.Steps

/-!
# The order of a walk

A walk through a tree visits every place of the tree once, in document order. The steps of
the walk are the recursion over the children, and all that is told by category is told of
the nodes in this order. The leaves of the tree of a source are visited from left to right,
before and after edits.
-/

namespace QueryTree

open Node

namespace Node

mutual

/-- The paths of all nodes of a tree, in document order. -/
def paths : Node → List Path
  | ⟨_, _, _, _, _, _, children⟩ => [] :: pathsFrom 0 children

/-- The paths of all nodes of the children from position `i` on. -/
def pathsFrom (i : Nat) : List Node → List Path
  | [] => []
  | n :: ns => (paths n).map (fun path => i :: path) ++ pathsFrom (i + 1) ns

end

theorem pathsFrom_eq_flatMap (i : Nat) (ns : List Node) :
    pathsFrom i ns = (ns.zipIdx i).flatMap fun (m, j) => m.paths.map fun path => j :: path := by
  induction ns generalizing i with
  | nil => rfl
  | cons n ns ih => rw [pathsFrom, ih, List.zipIdx_cons, List.flatMap_cons]

theorem paths_eq (n : Node) :
    n.paths = [] :: n.children.zipIdx.flatMap fun (m, i) => m.paths.map fun path => i :: path := by
  obtain ⟨_, _, _, _, _, _, children⟩ := n
  rw [paths, pathsFrom_eq_flatMap]

theorem cons_mem_paths {n : Node} {i : Nat} {path : Path} :
    i :: path ∈ n.paths ↔ ∃ m, n.children[i]? = some m ∧ path ∈ m.paths := by
  rw [paths_eq, List.mem_cons, or_iff_right (List.cons_ne_nil i path), List.mem_flatMap]
  constructor
  · rintro ⟨⟨m, j⟩, hm, hpath⟩
    obtain ⟨_, hinner, hcons⟩ := List.mem_map.mp hpath
    obtain ⟨rfl, rfl⟩ := List.cons.inj hcons
    exact ⟨m, List.mk_mem_zipIdx_iff_getElem?.mp hm, hinner⟩
  · rintro ⟨m, hm, hinner⟩
    exact ⟨(m, i), List.mk_mem_zipIdx_iff_getElem?.mpr hm, List.mem_map.mpr ⟨path, hinner, rfl⟩⟩

/-- The paths are those that lead to a node. -/
theorem mem_paths_iff {n : Node} {path : Path} : path ∈ n.paths ↔ (n.at? path).isSome := by
  induction path generalizing n with
  | nil =>
      rw [paths_eq]
      simp
  | cons i path ih =>
      rw [cons_mem_paths, at?_cons]
      cases n.children[i]? with
      | none => simp
      | some m => simp [ih]

/-- Along the paths stand the nodes as the recursion lists them. -/
theorem map_at?_paths (n : Node) : n.paths.map (at? · n) = n.preorder.map some := by
  induction n using induction_children with
  | step n ih =>
      have hchild : ∀ x ∈ n.children.zipIdx,
          (x.1.paths.map fun path => x.2 :: path).map (at? · n) = x.1.preorder.map some := by
        intro x hx
        rw [← ih x.1 (List.fst_mem_of_mem_zipIdx hx), List.map_map]
        refine List.map_congr_left fun path _ => ?_
        rw [Function.comp_apply, at?_cons, List.mem_zipIdx_iff_getElem?.mp hx, Option.bind_some]
      calc
        n.paths.map (at? · n) =
            some n :: n.children.zipIdx.flatMap fun x => x.1.preorder.map some := by
          rw [paths_eq, List.map_cons, List.map_flatMap, List.flatMap_congr hchild]
          rfl
        _ = some n :: (n.children.zipIdx.map Prod.fst).flatMap fun m => m.preorder.map some := by
          rw [List.flatMap_map]
        _ = n.preorder.map some := by
          rw [List.zipIdx_map_fst, preorder_eq, preorderAll_eq_flatMap, List.map_cons,
            List.map_flatMap]

/-- The paths are listed in document order. -/
theorem paths_pairwise (n : Node) : n.paths.Pairwise Path.Precedes := by
  induction n using induction_children with
  | step n ih =>
      have hindex : n.children.zipIdx.Pairwise fun x y => x.2 < y.2 := by
        rw [← List.pairwise_map, List.zipIdx_map_snd]
        exact List.pairwise_lt_range' 1
      rw [paths_eq, List.pairwise_cons, List.pairwise_flatMap]
      refine ⟨?_, fun x hx => ?_, hindex.imp fun {x y} hlt p hp q hq => ?_⟩
      · intro path hpath
        obtain ⟨x, _, hx⟩ := List.mem_flatMap.mp hpath
        obtain ⟨inner, _, rfl⟩ := List.mem_map.mp hx
        exact .nil
      · rw [List.pairwise_map]
        exact (ih x.1 (List.fst_mem_of_mem_zipIdx hx)).imp .cons
      · obtain ⟨_, _, rfl⟩ := List.mem_map.mp hp
        obtain ⟨_, _, rfl⟩ := List.mem_map.mp hq
        exact .rel hlt

theorem paths_nodup (n : Node) : n.paths.Nodup :=
  (paths_pairwise n).imp Path.Precedes.ne

section Places

variable {n m : Node} {ns : List Node} {source t rest : Text}

/-- A node that is in the text after another one begins further on in the source. -/
theorem start_lt_start (hne : n.spelling ≠ []) (hsource : n.spelling ++ n.following <:+ source)
    (hafter : m.spelling ++ m.following <:+ n.following) : start source n < start source m := by
  obtain ⟨before, hbefore⟩ := hsource
  obtain ⟨between, hbetween⟩ := hafter
  have hpos := Text.byteSize_pos hne
  have houter := congrArg Text.byteSize hbefore
  have hinner := congrArg Text.byteSize hbetween
  rw [Text.byteSize_append, Text.byteSize_append] at houter
  rw [Text.byteSize_append] at hinner
  simp only [start, Text.byteSize_append] at hinner ⊢
  omega

/-- Nodes that cover a text one after the other begin one after the other. -/
theorem Tiles.start_pairwise (h : Tiles t ns rest) (hne : ∀ n ∈ ns, n.spelling ≠ [])
    (hsource : t <:+ source) : (ns.map (start source)).Pairwise (· < ·) := by
  induction ns generalizing t with
  | nil => exact .nil
  | cons n ns ih =>
      obtain ⟨rfl, htail⟩ := h
      rw [List.map_cons, List.pairwise_cons]
      constructor
      · intro place hplace
        obtain ⟨m, hm, rfl⟩ := List.mem_map.mp hplace
        exact start_lt_start (hne n List.mem_cons_self) hsource (htail.suffix_of_mem hm)
      · exact ih htail (fun m hm => hne m (List.mem_cons_of_mem n hm))
          ((List.suffix_append n.spelling n.following).trans hsource)

end Places

end Node

namespace Session

variable {σ : Type} {depth : Nat} {q : Text} {root n : Node}

/-- After every session, a node denotes a piece of the source that is not empty. -/
theorem run_denotes (h : parse depth q = .ok root) (session : Session σ) (s : σ)
    (hn : n ∈ (session.run (root, s)).1.preorder) :
    n.spelling ≠ [] ∧ n.spelling ++ n.following <:+ q := by
  obtain ⟨k, hk, _, hplace⟩ := (run_revises session (root, s)).samePlace.exists_of_mem hn
  have hcover := (tiles_singleton.mp (derives_of_parse h).tiles).1
  have hformed := formed_of_parse h
  have hsuffix := (hformed.mono fun _ hm => hm.tiled).suffix_of_mem hk
  rw [hcover] at hsuffix
  rw [hplace.spelling, hplace.following]
  exact ⟨(hformed k hk).nonempty, hsuffix⟩

/-- After every session, the leaves below a node begin one after the other. -/
theorem run_leaves_pairwise (h : parse depth q = .ok root) (session : Session σ) (s : σ)
    (hn : n ∈ (session.run (root, s)).1.preorder) :
    (n.leaves.map (start q)).Pairwise (· < ·) := by
  have htiled : n.Everywhere Tiled := (run_tiled h session s).of_mem hn
  refine htiled.tiles_leaves.start_pairwise (fun m hm => ?_) (run_denotes h session s hn).2
  have hbelow : m ∈ n.preorder := List.mem_of_mem_filter hm
  exact (run_denotes h session s (preorder_trans hbelow hn)).1

end Session

namespace Node

/-- A walk is the recursion over the children. Taken step by step, the walk through a tree
comes to an end, and by then it has visited the node and after it, child by child, what the
walks through the children visit. There is one visit for every place of the tree, in document
order. The nodes of a category are those among the visited, their count is how many they
are, and the one at a position is where a search stops that counts the others on its way.
In the tree of a source, with or without edits, the leaves are visited in the order in which
they begin. -/
theorem walk_is_preorder (n : Node) :
    (∀ visited, (∃ w, (Walk.through n).Visits visited w ∧ w.next? = none) ↔
        visited = n.descendants) ∧
      n.descendants = n :: n.children.flatMap descendants ∧
      (n.paths.map (at? · n) = n.descendants.map some ∧ n.paths.Nodup ∧
        n.paths.Pairwise Path.Precedes ∧ ∀ path, path ∈ n.paths ↔ (n.at? path).isSome) ∧
      (∀ c, n.nodes c = n.preorder.filter (fun m => m.category = c) ∧
        n.count c = (n.nodes c).length ∧
        ∀ i, n.find? c i = (n.nodes c)[i]? ∧ (Walk.through n).search c i = n.find? c i) ∧
      ∀ {σ : Type} {depth : Nat} {q : Text} {root : Node} (session : Session σ) (s : σ),
        parse depth q = .ok root → n ∈ (session.run (root, s)).1.preorder →
          ((n.descendants.filter isLeaf).map (start q)).Pairwise (· < ·) := by
  have hpreorder : descendants = preorder := funext descendants_eq_preorder
  refine ⟨fun visited => ?_, ?_, ?_, fun c => ?_, ?_⟩
  · rw [Walk.exists_visits_iff, Walk.remaining_through, hpreorder]
  · rw [hpreorder, preorder_eq, preorderAll_eq_flatMap]
  · rw [hpreorder]
    exact ⟨map_at?_paths n, paths_nodup n, paths_pairwise n, fun _ => mem_paths_iff⟩
  · refine ⟨nodes_eq_filter c n, rfl, fun i => ⟨rfl, ?_⟩⟩
    rw [Walk.search_eq, Walk.remaining_through, find?, nodes_eq_filter]
  · intro σ depth q root session s hroot hn
    rw [hpreorder]
    exact Session.run_leaves_pairwise hroot session s hn

theorem walk_is_preorder_bound :
    ∃ root, parse 2 "SELECT 'é', ? FROM t".toList = .ok root ∧
      (((Session.run [.bind [.integer 7]] (root, ())).1.descendants.filter isLeaf).map
        (start "SELECT 'é', ? FROM t".toList)).Pairwise (· < ·) := by
  obtain ⟨root, hroot⟩ := exists_tree_of_isOk 2 "SELECT 'é', ? FROM t".toList
    (by decide +kernel)
  exact ⟨root, hroot, (walk_is_preorder _).2.2.2.2 [.bind [.integer 7]] () hroot
    (self_mem_preorder _)⟩

end Node

end QueryTree
