import QueryTree.Proofs.Edit.Changes

/-!
# Bindings are all or nothing

A binding checks the number of its values once, and then writes them one by one over the
placeholder that is the first open one at the time. None of these writes fails. The
placeholders that are open at the start are apart from each other, so a write closes the one
it is made over and leaves all others as they are. A tree that is bound in place is therefore
never left half bound.
-/

namespace QueryTree.Node

variable {n m : Node} {path : Path} {paths : List Path} {values : List Value} {value : Value}

section Marks

variable {changes : List (Path × Value)}

/-- In a tree made by a session placeholders have no children. -/
theorem Reachable.atomicMarks (h : n.Reachable) : n.AtomicMarks := by
  obtain ⟨σ, depth, q, root, session, s, hroot, rfl⟩ := h
  exact (formed_of_parse hroot).atomicMarks.of_revises (session.run_revises (root, s))

/-- There is nothing below a placeholder. -/
theorem AtomicMarks.at?_append {x : Node} (hmarks : n.AtomicMarks)
    (hx : n.at? path = some x) (hc : x.category = .placeholderInject) (i : Nat) (rest : Path) :
    n.at? (path ++ i :: rest) = none := by
  have hleaf : x.children = [] := hmarks x (mem_preorder_iff_at?.mpr ⟨path, hx⟩) hc
  rw [Node.at?_append, hx, Option.bind_some, at?_cons, hleaf, List.getElem?_nil, Option.bind_none]

theorem openPaths_nodup (c : Category) (n : Node) : (n.openPaths c).Nodup :=
  (openPaths_pairwise c n).imp Path.Precedes.ne

/-- No open placeholder is below another one. -/
theorem openPaths_apart (hmarks : n.AtomicMarks) :
    (n.openPaths .placeholderInject).Pairwise Path.Apart := by
  refine (openPaths_pairwise .placeholderInject n).imp_of_mem fun {p q} hp hq hpq => ?_
  obtain ⟨x, hx, hc⟩ := mem_openPaths_iff.mp hp
  obtain ⟨y, hy, _⟩ := mem_openPaths_iff.mp hq
  constructor
  · rintro ⟨rest, rfl⟩
    cases rest with
    | nil =>
        rw [List.append_nil] at hpq
        exact Path.not_precedes_of_prefix List.prefix_rfl hpq
    | cons i rest =>
        have hnone := hmarks.at?_append hx.at? hc i rest
        exact Option.some_ne_none y (hy.at?.symm.trans hnone)
  · exact fun hgoes => Path.not_precedes_of_prefix hgoes hpq

/-- A value written over an open placeholder closes this placeholder and no other one. -/
theorem openPaths_overwriteWithLiteral (hmarks : n.AtomicMarks)
    (hpath : path ∈ n.openPaths .placeholderInject) (value : Value) :
    (n.modifyAt (overwriteWithLiteral value) path).openPaths .placeholderInject =
      (n.openPaths .placeholderInject).filter (· ≠ path) := by
  obtain ⟨x, hx, _⟩ := mem_openPaths_iff.mp hpath
  rw [hx.openPaths_modifyAt rfl]
  refine List.filter_congr fun p hp => ?_
  have : Std.Symm Path.Apart := ⟨fun _ _ hpq => hpq.symm⟩
  have hgoes : path <+: p ↔ p = path := by
    constructor
    · intro hpre
      by_contra hne
      exact ((openPaths_apart hmarks).forall hpath hp (Ne.symm hne)).1 hpre
    · rintro rfl
      exact List.prefix_rfl
  simp only [hgoes, ne_eq]

theorem AtomicMarks.overwriteWithLiteral (hmarks : n.AtomicMarks)
    (hpath : path ∈ n.openPaths .placeholderInject) (value : Value) :
    (n.modifyAt (overwriteWithLiteral value) path).AtomicMarks := by
  obtain ⟨x, hx, _⟩ := mem_openPaths_iff.mp hpath
  exact hmarks.of_revises
    (hx.revises (revisedTo_overwriteWithLiteral value hx.isOverwritten) rfl)

/-- Values written over some of the open placeholders close these and no others. -/
theorem openPaths_changeEach (hmarks : n.AtomicMarks)
    (hpaths : changes.map Prod.fst ⊆ n.openPaths .placeholderInject)
    (hnodup : (changes.map Prod.fst).Nodup) :
    (n.changeEach overwriteWithLiteral changes).openPaths .placeholderInject =
      (n.openPaths .placeholderInject).filter (· ∉ changes.map Prod.fst) := by
  induction changes generalizing n with
  | nil => simp
  | cons c changes ih =>
      obtain ⟨path, value⟩ := c
      rw [List.map_cons, List.cons_subset] at hpaths
      rw [List.map_cons, List.nodup_cons] at hnodup
      have hclosed := openPaths_overwriteWithLiteral hmarks hpaths.1 value
      have hrest : changes.map Prod.fst ⊆
          (n.modifyAt (overwriteWithLiteral value) path).openPaths .placeholderInject := by
        intro p hp
        rw [hclosed, List.mem_filter, decide_eq_true_iff]
        exact ⟨hpaths.2 hp, fun hpath => hnodup.1 (hpath ▸ hp)⟩
      rw [changeEach_cons, ih (hmarks.overwriteWithLiteral hpaths.1 value) hrest hnodup.2, hclosed,
        List.filter_filter]
      simp only [List.map_cons, List.mem_cons, not_or, Bool.decide_and, Bool.and_comm, ne_eq]

end Marks

section InPlace

/-- Replaces the first open placeholder of a tree by each of the values in turn. When there
is none any more, what has been written so far stays in the tree. -/
def bindEachInPlace : List Value → Node → Node × Option EditError
  | [], root => (root, none)
  | value :: values, root =>
    match root.replace .placeholderInject value 0 with
    | .ok root => bindEachInPlace values root
    | .error e => (root, some e)

/-- Binds values to the open placeholders of a tree that is changed in place. The answer
has the tree that is there afterwards, whether there is an error or not. -/
def bindInPlace (values : List Value) (root : Node) : Node × Except EditError Nat :=
  let expected := root.countOpen .placeholderInject
  if values.length < expected then (root, .error (.tooFewValues expected values.length))
  else if expected < values.length then (root, .error (.tooManyValues expected values.length))
  else match bindEachInPlace values root with
    | (root, none) => (root, .ok expected)
    | (root, some e) => (root, .error e)

/-- As long as there is a placeholder for each value, no write fails, and the values go to
the placeholders that are open at the start. -/
theorem bindEach_eq_changeEach (hmarks : n.AtomicMarks)
    (h : values.length = (n.openPaths .placeholderInject).length) :
    bindEach values n =
        .ok (n.changeEach overwriteWithLiteral ((n.openPaths .placeholderInject).zip values)) ∧
      bindEachInPlace values n =
        (n.changeEach overwriteWithLiteral ((n.openPaths .placeholderInject).zip values),
          none) := by
  induction values generalizing n with
  | nil =>
      rw [List.zip_nil_right, changeEach_nil]
      exact ⟨rfl, rfl⟩
  | cons value values ih =>
      obtain ⟨path, paths, hpaths⟩ := List.exists_cons_of_length_eq_add_one h.symm
      have hmem : path ∈ n.openPaths .placeholderInject := hpaths ▸ List.mem_cons_self
      have hnodup : path ∉ paths := by
        have hall := openPaths_nodup .placeholderInject n
        rw [hpaths] at hall
        exact (List.nodup_cons.mp hall).1
      -- The first write leaves the other open paths as they are, so the values that are left
      -- go to the paths that they would have gone to at the start.
      have hclosed := openPaths_overwriteWithLiteral hmarks hmem value
      have hrest : paths.filter (· ≠ path) = paths :=
        List.filter_eq_self.mpr fun p hp =>
          decide_eq_true (ne_of_mem_of_not_mem hp hnodup)
      rw [hpaths, List.filter_cons_of_neg (by simp), hrest] at hclosed
      have hlength : values.length = ((n.modifyAt (overwriteWithLiteral value) path).openPaths
          .placeholderInject).length := by
        rw [hclosed]
        rw [hpaths] at h
        exact Nat.succ.inj h
      have hfirst : n.replace .placeholderInject value 0 =
          .ok (n.modifyAt (overwriteWithLiteral value) path) :=
        replace_of_select (select_zero hpaths)
      obtain ⟨heach, hplace⟩ := ih (hmarks.overwriteWithLiteral hmem value) hlength
      rw [hclosed] at heach hplace
      rw [hpaths, List.zip_cons_cons, changeEach_cons]
      constructor
      · rw [bindEach, hfirst]
        exact heach
      · rw [bindEachInPlace, hfirst]
        exact hplace

/-- With one value for each open placeholder a binding writes the values over these. -/
theorem bind_eq_changeEach (hmarks : n.AtomicMarks)
    (h : values.length = n.countOpen .placeholderInject) :
    n.bind values = .ok (n.changeEach overwriteWithLiteral
        ((n.openPaths .placeholderInject).zip values), values.length) ∧
      n.bindInPlace values = (n.changeEach overwriteWithLiteral
        ((n.openPaths .placeholderInject).zip values), .ok values.length) := by
  have hlength : values.length = (n.openPaths .placeholderInject).length := by
    rw [h, length_openPaths]
  obtain ⟨heach, hplace⟩ := bindEach_eq_changeEach hmarks hlength
  constructor
  · rw [bind, if_neg (by omega), if_neg (by omega), heach, h]
    rfl
  · rw [bindInPlace, if_neg (by omega), if_neg (by omega), hplace, h]

end InPlace

/-- What a binding makes of a tree. -/
structure Bound (values : List Value) (n m : Node) : Prop where
  /-- The placeholders get the values in document order. -/
  filled : List.Forall₂ (fun path value => m.at? path = (n.at? path).map
    (overwriteWithLiteral value)) (n.openPaths .placeholderInject) values
  /-- All other nodes stay as they are. -/
  others : ∀ path ∉ n.openPaths .placeholderInject,
    (m.at? path).map own = (n.at? path).map own
  /-- Where a text has been written over a node, nothing changes below it either. -/
  hidden : ∀ path x, n.at? path = some x → x.isOverwritten = true → m.at? path = some x
  /-- No placeholder is left open. -/
  none_open : m.countOpen .placeholderInject = 0

theorem bound_changeEach (hmarks : n.AtomicMarks)
    (h : values.length = (n.openPaths .placeholderInject).length) :
    Bound values n
      (n.changeEach overwriteWithLiteral ((n.openPaths .placeholderInject).zip values)) := by
  have hfirsts : ((n.openPaths .placeholderInject).zip values).map Prod.fst =
      n.openPaths .placeholderInject := List.map_fst_zip h.ge
  have hapart := hfirsts.symm ▸ openPaths_apart hmarks
  constructor
  · exact List.forall₂_iff_zip.mpr ⟨h.symm, fun hmem => at?_changeEach hapart hmem⟩
  · intro path hpath
    have hkept : ∀ (value : Value) (x : Node),
        (overwriteWithLiteral value x).children = x.children := fun _ _ => rfl
    apply own_at?_changeEach hkept
    rwa [hfirsts]
  · intro path x hx hover
    obtain ⟨m, hm, hrevised⟩ :=
      (revises_of_bindEach (bindEach_eq_changeEach hmarks h).1).at? hx
    rw [hm, hrevised.final hover]
  · have hnodup := hfirsts.symm ▸ openPaths_nodup .placeholderInject n
    rw [← length_openPaths, openPaths_changeEach hmarks (fun p hp => hfirsts ▸ hp) hnodup, hfirsts,
      List.length_eq_zero_iff, List.filter_eq_nil_iff]
    simp

/-- Binding is all or nothing. In a tree that edits have made of a parsed one, the open
placeholders are those that neither they nor a node above them have been overwritten, so
those inside an overwritten node do not count. With fewer or more values than there are open
placeholders the binding fails with these two numbers, and the tree that is bound in place
is the same as before. With as many values it writes the literals of the values over the
open placeholders in document order, answers their number, and does nothing else. -/
theorem bind_all_or_nothing (h : n.Reachable) (values : List Value) :
    (n.openPaths .placeholderInject).Pairwise Path.Precedes ∧
      (∀ path, path ∈ n.openPaths .placeholderInject ↔
        ∃ x, n.at? path = some x ∧ x.category = .placeholderInject ∧
          ∀ p k, p <+: path → n.at? p = some k → k.isOverwritten = false) ∧
      (n.openPaths .placeholderInject).length = n.countOpen .placeholderInject ∧
      (values.length < n.countOpen .placeholderInject →
        n.bind values =
            .error (.tooFewValues (n.countOpen .placeholderInject) values.length) ∧
          n.bindInPlace values =
            (n, .error (.tooFewValues (n.countOpen .placeholderInject) values.length))) ∧
      (n.countOpen .placeholderInject < values.length →
        n.bind values =
            .error (.tooManyValues (n.countOpen .placeholderInject) values.length) ∧
          n.bindInPlace values =
            (n, .error (.tooManyValues (n.countOpen .placeholderInject) values.length))) ∧
      (values.length = n.countOpen .placeholderInject → ∃ m,
        n.bind values = .ok (m, values.length) ∧
          n.bindInPlace values = (m, .ok values.length) ∧ Bound values n m) := by
  refine ⟨openPaths_pairwise _ n, fun path => mem_openPaths_iff_at?, length_openPaths _ n,
    fun hfew => ?_, fun hmany => ?_, fun hlength => ?_⟩
  · exact ⟨if_pos hfew, if_pos hfew⟩
  · have hnot : ¬values.length < n.countOpen .placeholderInject := by omega
    constructor
    · rw [bind, if_neg hnot, if_pos hmany]
    · rw [bindInPlace, if_neg hnot, if_pos hmany]
  · obtain ⟨hbind, hplace⟩ := bind_eq_changeEach h.atomicMarks hlength
    exact ⟨_, hbind, hplace, bound_changeEach h.atomicMarks (by rw [hlength, length_openPaths])⟩

/-- The condition has been written over, so the placeholder in it takes no value. -/
theorem bind_all_or_nothing_hidden :
    ∃ root n, parse 2 "SELECT ?, ? FROM t WHERE a = ?".toList = .ok root ∧
      (Session.run [.replaceWith .condition 0 fun _ text => (text.reverse, ())]
        (root, ())).1 = n ∧ n.Reachable ∧
      n.bindInPlace [.null] = (n, .error (.tooFewValues 2 1)) ∧
      n.bindInPlace [.integer 1, .integer 2, .null] = (n, .error (.tooManyValues 2 3)) ∧
      ∃ m, n.bindInPlace [.integer 1, .text "x".toList] = (m, .ok 2) ∧
        Bound [.integer 1, .text "x".toList] n m := by
  obtain ⟨root, hroot⟩ := exists_tree_of_isOk 2 "SELECT ?, ? FROM t WHERE a = ?".toList
    (by decide +kernel)
  have hmap : (parse 2 "SELECT ?, ? FROM t WHERE a = ?".toList).map (fun root =>
      (Session.run [.replaceWith .condition 0 fun _ text => (text.reverse, ())]
        (root, ())).1.countOpen .placeholderInject) = .ok 2 := by
    decide +kernel
  rw [hroot] at hmap
  generalize hn : (Session.run [.replaceWith .condition 0 fun _ text => (text.reverse, ())]
    (root, ())).1 = n
  have hcount : n.countOpen .placeholderInject = 2 := hn ▸ Except.ok.inj hmap
  have h : n.Reachable := ⟨Unit, 2, _, root, _, (), hroot, hn⟩
  refine ⟨root, n, hroot, hn, h, ?_, ?_, ?_⟩
  · obtain ⟨_, _, _, hfew, _⟩ := bind_all_or_nothing h [.null]
    have herror := (hfew (hcount ▸ Nat.one_lt_two)).2
    rwa [hcount] at herror
  · obtain ⟨_, _, _, _, hmany, _⟩ := bind_all_or_nothing h [.integer 1, .integer 2, .null]
    have herror := (hmany (hcount ▸ Nat.lt_add_one 2)).2
    rwa [hcount] at herror
  · obtain ⟨_, _, _, _, _, hequal⟩ := bind_all_or_nothing h [.integer 1, .text "x".toList]
    obtain ⟨m, _, hplace, hbound⟩ := hequal hcount.symm
    exact ⟨m, hplace, hbound⟩

end QueryTree.Node
