import QueryTree.Proofs.Edit.Open

/-!
# Binding

Binding writes over the open placeholders one at a time and looks for the first of
them afresh each time. The result is the same as that of a single pass over the tree
that hands out the values from left to right.
-/

namespace QueryTree.Node

/-- Writes the first of some values over a node, if there is one. -/
def takeValue (n : Node) : List Value → Node
  | [] => n
  | value :: _ => n.overwriteWithLiteral value

mutual

/-- Writes values over the open placeholders of a tree, from left to right, for as
long as there are values. -/
def fillOpen : List Value → Node → Node
  | values, ⟨category, spelling, following, prev, next, replacement, children⟩ =>
    let n : Node := ⟨category, spelling, following, prev, next, replacement, children⟩
    if replacement.isSome then n
    else if category = .placeholderInject then n.takeValue values
    else { n with children := fillOpenAll values children }

/-- Writes values over the open placeholders of a list of trees. Each tree takes the
values that those before it have left. -/
def fillOpenAll : List Value → List Node → List Node
  | _, [] => []
  | values, n :: ns =>
    fillOpen values n :: fillOpenAll (values.drop (countOpen .placeholderInject n)) ns

end

/-- Whether placeholders have no children. -/
def AtomicMarks (n : Node) : Prop :=
  n.Everywhere fun m => m.category = .placeholderInject → m.children = []

section

variable {n : Node} {values : List Value}

theorem fillOpen_of_overwritten (h : n.isOverwritten = true) : fillOpen values n = n := by
  obtain ⟨_, _, _, _, _, _, _⟩ := n
  rw [fillOpen]
  exact if_pos h

theorem fillOpen_of_mark (h : n.isOverwritten = false)
    (hc : n.category = .placeholderInject) : fillOpen values n = n.takeValue values := by
  obtain ⟨_, _, _, _, _, _, _⟩ := n
  rw [fillOpen, if_pos hc]
  exact if_neg (Bool.eq_false_iff.mp h)

theorem fillOpen_of_inner (h : n.isOverwritten = false)
    (hc : n.category ≠ .placeholderInject) :
    fillOpen values n = { n with children := fillOpenAll values n.children } := by
  obtain ⟨_, _, _, _, _, _, _⟩ := n
  rw [fillOpen, if_neg hc]
  exact if_neg (Bool.eq_false_iff.mp h)

theorem mem_fillOpenAll {m : Node} {ns : List Node} (h : m ∈ fillOpenAll values ns) :
    ∃ k ∈ ns, ∃ rest, m = fillOpen rest k := by
  induction ns generalizing values with
  | nil => cases h
  | cons n ns ih =>
      rcases List.mem_cons.mp h with rfl | h
      · exact ⟨n, List.mem_cons_self, values, rfl⟩
      · obtain ⟨k, hk, rest, rfl⟩ := ih h
        exact ⟨k, List.mem_cons_of_mem n hk, rest, rfl⟩

/-- Without open placeholders there is nothing to write over, and without values
there is nothing to write. -/
theorem fillOpen_eq_self (h : values = [] ∨ n.countOpen .placeholderInject = 0) :
    fillOpen values n = n := by
  induction n using induction_forest (fun ns => ∀ values,
      values = [] ∨ countOpenAll .placeholderInject ns = 0 → fillOpenAll values ns = ns)
      generalizing values with
  | nil values h => rfl
  | cons m ns hm ih values h =>
      have hfirst : values = [] ∨ m.countOpen .placeholderInject = 0 :=
        h.imp_right fun h => (Nat.add_eq_zero_iff.mp h).1
      have hrest : values.drop (m.countOpen .placeholderInject) = [] ∨
          countOpenAll .placeholderInject ns = 0 :=
        h.imp (fun h => by rw [h, List.drop_nil]) fun h => (Nat.add_eq_zero_iff.mp h).2
      rw [fillOpenAll, hm hfirst, ih _ hrest]
  | step n ih =>
      cases hn : n.isOverwritten with
      | true => exact fillOpen_of_overwritten hn
      | false =>
          by_cases hc : n.category = .placeholderInject
          · rcases h with rfl | h
            · rw [fillOpen_of_mark hn hc, takeValue]
            · rw [countOpen_of_open hn, if_pos hc] at h
              omega
          · rw [countOpen_of_open hn, if_neg hc, Nat.zero_add] at h
            rw [fillOpen_of_inner hn hc, ih values h]
            obtain ⟨_, _, _, _, _, _, _⟩ := n
            rfl

end

theorem fillOpenAll_nil (ns : List Node) : fillOpenAll [] ns = ns := by
  induction ns with
  | nil => rfl
  | cons n ns ih => rw [fillOpenAll, fillOpen_eq_self (Or.inl rfl), List.drop_nil, ih]

/-- A tree that has been filled has as many open placeholders less as there were
values. -/
theorem countOpen_fillOpen {n : Node} (hmarks : n.AtomicMarks) (values : List Value) :
    (fillOpen values n).countOpen .placeholderInject =
      n.countOpen .placeholderInject - values.length := by
  induction n using induction_forest (fun ns => ∀ values, (∀ m ∈ ns, m.AtomicMarks) →
      countOpenAll .placeholderInject (fillOpenAll values ns) =
        countOpenAll .placeholderInject ns - values.length) generalizing values with
  | nil values hmarks => exact (Nat.zero_sub _).symm
  | cons m ns hm ih values hmarks =>
      rw [fillOpenAll, countOpenAll, hm (hmarks m List.mem_cons_self),
        ih _ fun k hk => hmarks k (List.mem_cons_of_mem m hk), countOpenAll, List.length_drop]
      omega
  | step n ih =>
      cases hn : n.isOverwritten with
      | true =>
          rw [fillOpen_of_overwritten hn, countOpen_of_overwritten hn, Nat.zero_sub]
      | false =>
          by_cases hc : n.category = .placeholderInject
          · have hone : n.countOpen .placeholderInject = 1 := by
              rw [countOpen_of_open hn, if_pos hc, hmarks.self hc, countOpenAll]
            rw [fillOpen_of_mark hn hc, hone]
            cases values with
            | nil => exact hone
            | cons value values =>
                rw [takeValue, countOpen_of_overwritten rfl, List.length_cons]
                omega
          · have hinner : ({ n with children := fillOpenAll values n.children } :
                Node).isOverwritten = false := hn
            rw [fillOpen_of_inner hn hc, countOpen_of_open hinner, if_neg hc, Nat.zero_add,
              countOpen_of_open hn, if_neg hc, Nat.zero_add]
            exact ih values fun m hm => hmarks.child hm

/-- Filling a tree twice is filling it once with all of the values. -/
theorem fillOpen_fillOpen {n : Node} (hmarks : n.AtomicMarks) (values more : List Value) :
    fillOpen more (fillOpen values n) = fillOpen (values ++ more) n := by
  induction n using induction_forest (fun ns => ∀ values more, (∀ m ∈ ns, m.AtomicMarks) →
      fillOpenAll more (fillOpenAll values ns) = fillOpenAll (values ++ more) ns)
      generalizing values more with
  | nil values more hmarks => rfl
  | cons m ns hm ih values more hmarks =>
      have hfirst := hmarks m List.mem_cons_self
      rw [fillOpenAll, fillOpenAll, fillOpenAll, hm hfirst,
        ih _ _ fun k hk => hmarks k (List.mem_cons_of_mem m hk),
        countOpen_fillOpen hfirst, List.drop_append]
  | step n ih =>
      cases hn : n.isOverwritten with
      | true => rw [fillOpen_of_overwritten hn, fillOpen_of_overwritten hn,
          fillOpen_of_overwritten hn]
      | false =>
          by_cases hc : n.category = .placeholderInject
          · rw [fillOpen_of_mark hn hc, fillOpen_of_mark hn hc]
            cases values with
            | nil => exact fillOpen_of_mark hn hc
            | cons value values => exact fillOpen_of_overwritten rfl
          · have hinner : ({ n with children := fillOpenAll values n.children } :
                Node).isOverwritten = false := hn
            rw [fillOpen_of_inner hn hc, fillOpen_of_inner hinner hc, fillOpen_of_inner hn hc,
              ih values more fun m hm => hmarks.child hm]

/-- Writing over the first open placeholder is filling the tree with one value. -/
theorem modifyAt_of_openPaths {n : Node} {path : Path} {paths : List Path} (value : Value)
    (h : n.openPaths .placeholderInject = path :: paths) :
    n.modifyAt (overwriteWithLiteral value) path = fillOpen [value] n := by
  induction n using induction_forest (fun ns => ∀ i path paths,
      openPathsFrom .placeholderInject i ns = path :: paths →
      ∃ j inner, path = (i + j) :: inner ∧
        ns.modify j (modifyAt (overwriteWithLiteral value) inner) = fillOpenAll [value] ns)
      generalizing path paths with
  | nil i path paths h => simp [openPathsFrom] at h
  | cons m ns hfirst ih i path paths h =>
      rw [openPathsFrom] at h
      cases hm : m.openPaths .placeholderInject with
      | nil =>
          have hcount : m.countOpen .placeholderInject = 0 := by
            rw [← length_openPaths, hm, List.length_nil]
          rw [hm, List.map_nil, List.nil_append] at h
          obtain ⟨j, inner, rfl, hj⟩ := ih (i + 1) path paths h
          refine ⟨j + 1, inner, by rw [Nat.add_assoc, Nat.add_comm 1 j], ?_⟩
          rw [List.modify_succ_cons, hj, fillOpenAll, fillOpen_eq_self (Or.inr hcount), hcount,
            List.drop_zero]
      | cons inner inners =>
          have hcount : m.countOpen .placeholderInject = inners.length + 1 := by
            rw [← length_openPaths, hm, List.length_cons]
          rw [hm, List.map_cons, List.cons_append, List.cons.injEq] at h
          refine ⟨0, inner, h.1.symm, ?_⟩
          rw [List.modify_zero_cons, hfirst hm, fillOpenAll, hcount, List.drop_succ_cons,
            List.drop_nil, fillOpenAll_nil]
  | step n ih =>
      cases hn : n.isOverwritten with
      | true =>
          rw [openPaths_of_overwritten hn] at h
          cases h
      | false =>
          rw [openPaths_of_open hn] at h
          by_cases hc : n.category = .placeholderInject
          · rw [if_pos hc, List.singleton_append, List.cons.injEq] at h
            rw [← h.1, modifyAt, fillOpen_of_mark hn hc, takeValue]
          · rw [if_neg hc, List.nil_append] at h
            obtain ⟨j, inner, rfl, hj⟩ := ih 0 path paths h
            rw [Nat.zero_add, modifyAt, hj, fillOpen_of_inner hn hc]

/-- Writing values over the first open placeholder in turn is one pass over the
tree. -/
theorem bindEach_fillOpen {n : Node} (hmarks : n.AtomicMarks) (written values : List Value)
    (h : written.length + values.length = n.countOpen .placeholderInject) :
    bindEach values (fillOpen written n) = .ok (fillOpen (written ++ values) n) := by
  induction values generalizing written with
  | nil => rw [bindEach, List.append_nil]
  | cons value values ih =>
      rw [List.length_cons] at h
      have hcount : ((fillOpen written n).openPaths .placeholderInject).length =
          values.length + 1 := by
        rw [length_openPaths, countOpen_fillOpen hmarks]
        omega
      obtain ⟨path, paths, hpaths⟩ := List.exists_cons_of_length_eq_add_one hcount
      have hreplace : (fillOpen written n).replace .placeholderInject value 0 =
          .ok (fillOpen (written ++ [value]) n) := by
        rw [replace, select_zero hpaths, Except.map, modifyAt_of_openPaths value hpaths,
          fillOpen_fillOpen hmarks]
      have hrest := ih (written ++ [value]) (by
        rw [List.length_append, List.length_singleton]
        omega)
      rw [bindEach, hreplace]
      rw [List.append_assoc, List.singleton_append] at hrest
      exact hrest

/-- Binding takes one value for each open placeholder, no more and no less. -/
theorem bind_eq_ok {n : Node} (hmarks : n.AtomicMarks) {values : List Value} {bound : Node}
    {count : Nat} :
    n.bind values = .ok (bound, count) ↔
      values.length = n.countOpen .placeholderInject ∧ bound = fillOpen values n ∧
        count = values.length := by
  simp only [bind]
  split
  next h =>
    exact ⟨nofun, fun hlength => by omega⟩
  next hfew =>
    split
    next h => exact ⟨nofun, fun hlength => by omega⟩
    next hmany =>
      have hlength : values.length = n.countOpen .placeholderInject := by omega
      have heach := bindEach_fillOpen hmarks [] values (by
        rw [List.length_nil, Nat.zero_add, hlength])
      rw [fillOpen_eq_self (Or.inl rfl), List.nil_append] at heach
      rw [heach, Except.map]
      simp only [Except.ok.injEq, Prod.mk.injEq]
      constructor
      · rintro ⟨rfl, rfl⟩
        exact ⟨hlength, rfl, hlength.symm⟩
      · rintro ⟨_, rfl, rfl⟩
        exact ⟨rfl, hlength.symm⟩

end QueryTree.Node
