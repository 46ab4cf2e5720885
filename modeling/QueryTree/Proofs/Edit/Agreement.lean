import QueryTree.Proofs.Edit.Order
import QueryTree.Proofs.Marks.Substitution

/-!
# Counting without binding

A query is checked, counted and bound by three ways through its tree: the open placeholders
are counted by recursion, the nodes of a category by a walk, and a binding selects one
placeholder after the other. On the tree of a query, which nothing has been written over,
the three agree.
-/

namespace QueryTree

namespace Node

variable {c : Category} {n : Node} {i : Nat} {path : Path}

/-- In a tree that nothing has been written over, the edits select what a search by
category finds. -/
theorem at?_of_select (h : n.Everywhere fun m => m.replacement = none)
    (hselect : n.select c i = .ok path) : n.at? path = n.find? c i := by
  have hpath := congrArg (·[i]?) (map_at?_openPaths c h)
  simp only [List.getElem?_map, select_eq_ok.mp hselect, Option.map_some] at hpath
  rw [find?]
  cases hnode : (n.nodes c)[i]? with
  | none => rw [hnode] at hpath; cases hpath
  | some m => rw [hnode] at hpath; exact Option.some.inj hpath

/-- A number of values that is not the number of open placeholders is reported. -/
theorem bind_of_length_ne {values : List Value}
    (h : n.countOpen .placeholderInject ≠ values.length) :
    n.bind values = .error (if values.length < n.countOpen .placeholderInject
      then .tooFewValues (n.countOpen .placeholderInject) values.length
      else .tooManyValues (n.countOpen .placeholderInject) values.length) := by
  simp only [bind]
  split
  next => rfl
  next => rw [if_pos (by omega)]

end Node

namespace Query

variable {depth : Nat} {q : Text} {root : Node}

theorem check_eq (depth : Nat) (q : Text) :
    check depth q = (read depth q).map (Node.countOpen .placeholderInject) := by
  unfold check
  cases read depth q <;> rfl

theorem count_eq {typed : Text} {c : Category} (hc : Category.ofName? typed = some c)
    (depth : Nat) (q : Text) : count depth q typed = (read depth q).map (Node.count c) := by
  rw [count, hc]
  cases read depth q <;> rfl

theorem bind_of_refused {e : QueryError} (h : read depth q = .error e) (typed : List Text)
    (forceText : Bool) : bind depth q typed forceText = .error e := by
  rw [bind, h]
  rfl

theorem bind_of_error {typed : List Text} {forceText : Bool} {e : EditError}
    (h : read depth q = .ok root)
    (hbind : root.bind (typed.map fun t => Value.ofTyped t forceText) = .error e) :
    bind depth q typed forceText = .error (.edit e) := by
  simp only [bind, h, hbind, Except.mapError, Bind.bind, Except.bind]

/-- A query is bound exactly with as many values as it has open placeholders. -/
theorem exists_bind_iff {typed : List Text} {forceText : Bool} (h : parse depth q = .ok root) :
    (∃ out, bind depth q typed forceText = .ok out) ↔
      root.countOpen .placeholderInject = typed.length := by
  have hmarks := (formed_of_parse h).atomicMarks
  constructor
  · rintro ⟨out, hout⟩
    obtain ⟨root', bound, marks, hroot', hbound, _⟩ := Query.bind_eq_ok.mp hout
    obtain rfl : root = root' := Except.ok.inj (h.symm.trans hroot')
    rw [← ((Node.bind_eq_ok hmarks).mp hbound).1, List.length_map]
  · intro hlength
    exact ⟨_, Query.bind_eq_ok.mpr ⟨root, _, _, h,
      (Node.bind_eq_ok hmarks).mpr ⟨by rw [List.length_map, hlength], rfl, rfl⟩, rfl⟩⟩

/-- Checking, counting and binding agree on the number of placeholders. Counting the
placeholders is checking the query. A query is bound exactly with as many values as the
check counts, any other number of values is reported together with this count, and a query
that does not pass the check is not bound for the same reason. In the tree of a query
moreover all nodes of a category are open, and an edit selects at a position the node that
a search by category finds there. -/
theorem counts_agree (depth : Nat) (q : Text) (typed : List Text) (forceText : Bool) :
    (∀ name, Category.ofName? name = some .placeholderInject →
      count depth q name = check depth q) ∧
      ((∃ out, bind depth q typed forceText = .ok out) ↔ check depth q = .ok typed.length) ∧
      (∀ marks, check depth q = .ok marks → marks ≠ typed.length →
        bind depth q typed forceText = .error (.edit (if typed.length < marks
          then .tooFewValues marks typed.length else .tooManyValues marks typed.length))) ∧
      (∀ e, check depth q = .error e →
        (∃ p, e = .parse p) ∧ bind depth q typed forceText = .error e) ∧
      ∀ root, parse depth q = .ok root → ∀ c,
        root.countOpen c = root.count c ∧
          (root.openPaths c).map (Node.at? · root) = (root.nodes c).map some ∧
          (∀ i path, root.select c i = .ok path → root.at? path = root.find? c i) ∧
          ∀ i, (∃ path, root.select c i = .ok path) ↔ (root.find? c i).isSome := by
  have hcount : ∀ name, Category.ofName? name = some .placeholderInject →
      count depth q name = (read depth q).map (Node.count .placeholderInject) :=
    fun name hname => count_eq hname depth q
  cases hparse : parse depth q with
  | error e =>
      have hread : read depth q = .error (.parse e) := by rw [read, hparse]; rfl
      simp only [check_eq, hread, bind_of_refused hread] at hcount ⊢
      refine ⟨hcount, by simp [Except.map], nofun, ?_, nofun⟩
      rintro _ ⟨⟩
      exact ⟨⟨e, rfl⟩, rfl⟩
  | ok root =>
      have hread : read depth q = .ok root := by rw [read, hparse]; rfl
      have hopen : root.Everywhere fun m => m.replacement = none :=
        (formed_of_parse hparse).mono fun _ hm => hm.unwritten
      have hall : ∀ c, root.countOpen c = root.count c := fun c =>
        Node.countOpen_eq_count c hopen
      simp only [check_eq, hread, Except.map, ← hall] at hcount ⊢
      refine ⟨hcount, ?_, ?_, nofun, ?_⟩
      · rw [exists_bind_iff hparse, Except.ok.injEq]
      · rintro _ ⟨⟩ hne
        apply bind_of_error hread
        rw [Node.bind_of_length_ne (by rwa [List.length_map]), List.length_map]
      · rintro _ ⟨⟩ c
        refine ⟨hall c, Node.map_at?_openPaths c hopen,
          fun i path hselect => Node.at?_of_select hopen hselect, fun i => ?_⟩
        rw [Node.exists_select_iff, hall, Node.find?, isSome_getElem?, Node.count]

theorem counts_agree_marks :
    count 2 "SELECT ?, [?] FROM t WHERE a = '?'".toList "Placeholder-Inject".toList =
        check 2 "SELECT ?, [?] FROM t WHERE a = '?'".toList ∧
      bind 2 "SELECT ?, [?] FROM t WHERE a = '?'".toList ["x".toList] true =
        .error (.edit (.tooFewValues 2 1)) ∧
      ∃ root, parse 2 "SELECT ?, [?] FROM t WHERE a = '?'".toList = .ok root ∧
        root.countOpen .command = root.count .command := by
  obtain ⟨hcount, _, hlength, _, htree⟩ :=
    counts_agree 2 "SELECT ?, [?] FROM t WHERE a = '?'".toList ["x".toList] true
  obtain ⟨root, hroot⟩ := exists_tree_of_isOk 2 "SELECT ?, [?] FROM t WHERE a = '?'".toList
    (by decide +kernel)
  exact ⟨hcount _ (by decide +kernel), hlength 2 (by decide +kernel) (by decide),
    root, hroot, (htree root hroot .command).1⟩

end Query

end QueryTree
