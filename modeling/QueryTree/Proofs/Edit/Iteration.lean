import QueryTree.Proofs.Edit.Changes

/-!
# Changing all texts one at a time

Changing the texts of all open nodes of a category in one pass comes to the same as
changing the first of them again and again until none is left. Both write over the
outermost open nodes, in document order, and hand their texts to the mutator as they were
at the start. An open node below another one of its category is closed along with it.
-/

namespace QueryTree

namespace Path

variable {p q : Path} {paths : List Path}

/-- The paths of a list that go on from no other one of it. -/
def outermost (paths : List Path) : List Path :=
  paths.filter fun p => ∀ q ∈ paths, q <+: p → q = p

/-- The first path in document order is outermost. The others are those that are outermost
among the paths that do not go on from it. -/
theorem outermost_cons (h : (p :: paths).Pairwise Precedes) :
    outermost (p :: paths) = p :: outermost (paths.filter fun q => ¬p <+: q) := by
  have hfirst : ∀ q ∈ paths, ¬q <+: p := fun q hq hprefix =>
    not_precedes_of_prefix hprefix (List.rel_of_pairwise_cons h hq)
  rw [outermost, outermost, List.filter_cons_of_pos, List.filter_filter]
  · congr 1
    refine List.filter_congr fun r hr => ?_
    have hne : p ≠ r := fun heq => hfirst r hr (heq ▸ List.prefix_rfl)
    rw [← Bool.decide_and, decide_eq_decide]
    constructor
    · intro hall
      refine ⟨fun q hq => hall q (List.mem_cons_of_mem p (List.mem_of_mem_filter hq)), ?_⟩
      exact fun hprefix => hne (hall p List.mem_cons_self hprefix)
    · rintro ⟨hall, hapart⟩ q hq hprefix
      rcases List.mem_cons.mp hq with rfl | hq
      · exact absurd hprefix hapart
      · refine hall q (List.mem_filter.mpr ⟨hq, ?_⟩) hprefix
        exact decide_eq_true fun hpq => hapart (hpq.trans hprefix)
  · refine decide_eq_true fun q hq hprefix => ?_
    rcases List.mem_cons.mp hq with rfl | hq
    · rfl
    · exact absurd hprefix (hfirst q hq)

/-- No outermost path goes on from another one. -/
theorem outermost_pairwise (h : paths.Pairwise Precedes) :
    (outermost paths).Pairwise fun p q => ¬p <+: q ∧ ¬q <+: p := by
  refine (h.filter _).imp_of_mem fun {p q} hp hq hpq => ?_
  have hne : p ≠ q := hpq.ne
  obtain ⟨hp, houter⟩ := List.mem_filter.mp hp
  obtain ⟨hq, houter'⟩ := List.mem_filter.mp hq
  exact ⟨fun hprefix => hne (of_decide_eq_true houter' p hp hprefix),
    fun hprefix => hne (of_decide_eq_true houter q hq hprefix).symm⟩

end Path

namespace Node

variable {σ : Type} {c : Category} {mutator : Mutator σ} {n m x : Node} {s s' t : σ} {k : Nat}
variable {path : Path} {paths : List Path}

section Pass

theorem overwriteOutermostAll_cons (m : Node) (ns : List Node) :
    overwriteOutermostAll c mutator (m :: ns) s =
      let answer := overwriteOutermost c mutator m s
      let rest := overwriteOutermostAll c mutator ns answer.2.2
      (answer.1 :: rest.1, answer.2.1 + rest.2.1, rest.2.2) := by
  rw [overwriteOutermostAll]

/-- The pass leaves trees alone that have no open node of the category. -/
theorem overwriteOutermost_eq_self (h : n.openPaths c = []) :
    overwriteOutermost c mutator n s = (n, 0, s) := by
  induction n using induction_forest (fun ns => ∀ i, openPathsFrom c i ns = [] →
      overwriteOutermostAll c mutator ns s = (ns, 0, s)) with
  | nil i hpaths => rfl
  | cons m ns hm ih i hpaths =>
      rw [openPathsFrom, List.append_eq_nil_iff, List.map_eq_nil_iff] at hpaths
      simp only [overwriteOutermostAll_cons, hm hpaths.1, ih (i + 1) hpaths.2, Nat.add_zero]
  | step n ih =>
      cases hn : n.isOverwritten with
      | true => exact overwriteOutermost_of_overwritten hn
      | false =>
          rw [openPaths_of_open hn, List.append_eq_nil_iff] at h
          by_cases hc : n.category = c
          · rw [if_pos hc] at h
            cases h.1
          · rw [overwriteOutermost_of_inner hn hc, ih 0 h.2]
            obtain ⟨_, _, _, _, _, _, _⟩ := n
            rfl

/-- The answer of a pass after one more change. -/
def addChange {α : Type} (answer : α × Nat × σ) : α × Nat × σ :=
  (answer.1, answer.2.1 + 1, answer.2.2)

/-- The pass changes the first open node of the category before all others. -/
theorem overwriteOutermost_step (h : n.openPaths c = path :: paths) (hx : n.at? path = some x) :
    overwriteOutermost c mutator n s =
      addChange (overwriteOutermost c mutator
        (n.modifyAt (overwrite (mutator s x.text).1) path) (mutator s x.text).2) := by
  induction n using induction_forest (fun ns => ∀ i path paths,
      openPathsFrom c i ns = path :: paths →
      ∃ j inner k x, path = (i + j) :: inner ∧ ns[j]? = some k ∧ k.at? inner = some x ∧
        overwriteOutermostAll c mutator ns s = addChange (overwriteOutermostAll c mutator
          (ns.modify j (modifyAt (overwrite (mutator s x.text).1) inner))
          (mutator s x.text).2)) generalizing path paths x with
  | nil i path paths h => simp [openPathsFrom] at h
  | cons m ns hfirst ih i path paths h =>
      rw [openPathsFrom] at h
      cases hm : m.openPaths c with
      | nil =>
          rw [hm, List.map_nil, List.nil_append] at h
          obtain ⟨j, inner, k, x, rfl, hk, hx, hrest⟩ := ih (i + 1) path paths h
          refine ⟨j + 1, inner, k, x, by rw [Nat.add_assoc, Nat.add_comm 1 j], hk, hx, ?_⟩
          simp only [List.modify_succ_cons, overwriteOutermostAll_cons,
            overwriteOutermost_eq_self hm, hrest, addChange, Nat.add_assoc]
      | cons inner inners =>
          obtain ⟨x, hx, _⟩ := exists_openAt_of_select (select_zero hm)
          rw [hm, List.map_cons, List.cons_append, List.cons.injEq] at h
          refine ⟨0, inner, m, x, h.1.symm, rfl, hx.at?, ?_⟩
          simp only [List.modify_zero_cons, overwriteOutermostAll_cons, hfirst hm hx.at?,
            addChange, Nat.add_right_comm]
  | step n ih =>
      cases hn : n.isOverwritten with
      | true =>
          rw [openPaths_of_overwritten hn] at h
          cases h
      | false =>
          rw [openPaths_of_open hn] at h
          by_cases hc : n.category = c
          · rw [if_pos hc, List.singleton_append, List.cons.injEq] at h
            obtain ⟨rfl, _⟩ := h
            obtain rfl := Option.some.inj hx
            rw [overwriteOutermost_of_eq hn hc, modifyAt, overwriteOutermost_of_overwritten rfl]
            rfl
          · rw [if_neg hc, List.nil_append] at h
            obtain ⟨j, inner, k, x', rfl, hk, hx', hchildren⟩ := ih 0 path paths h
            rw [Nat.zero_add] at hx ⊢
            rw [at?_cons, hk, Option.bind_some, hx', Option.some.injEq] at hx
            subst hx
            have hinner : (n.modifyAt (overwrite (mutator s x'.text).1)
                (j :: inner)).isOverwritten = false := hn
            rw [overwriteOutermost_of_inner hn hc, overwriteOutermost_of_inner hinner hc,
              children_modifyAt_cons, hchildren]
            rfl

end Pass

section Writes

/-- The current texts of the nodes at some paths. -/
def textsAt (paths : List Path) (n : Node) : List Text :=
  paths.map fun path => ((n.at? path).map text).getD []

/-- Writes texts over the nodes at some paths, one after the other. -/
def writeOver : List Path → List Text → Node → Node
  | path :: paths, text :: texts, n => writeOver paths texts (n.modifyAt (overwrite text) path)
  | _, _, n => n

/-- What a mutator makes of texts one after the other, and its state at the end. -/
def Mutator.runOver (mutator : Mutator σ) : List Text → σ → List Text × σ
  | [], s => ([], s)
  | text :: texts, s =>
    let rest := runOver mutator texts (mutator s text).2
    ((mutator s text).1 :: rest.1, rest.2)

theorem Mutator.length_runOver (mutator : Mutator σ) (texts : List Text) (s : σ) :
    (mutator.runOver texts s).1.length = texts.length := by
  induction texts generalizing s with
  | nil => rfl
  | cons text texts ih => rw [runOver, List.length_cons, List.length_cons, ih]

/-- A mutator that also keeps the texts that it has been called with. -/
def Mutator.logged (mutator : Mutator σ) : Mutator (σ × List Text) :=
  fun (s, log) text => ((mutator s text).1, (mutator s text).2, log ++ [text])

theorem Mutator.runOver_logged (mutator : Mutator σ) (texts : List Text) (s : σ)
    (log : List Text) :
    mutator.logged.runOver texts (s, log) =
      ((mutator.runOver texts s).1, (mutator.runOver texts s).2, log ++ texts) := by
  induction texts generalizing s log with
  | nil => simp [runOver]
  | cons text texts ih => simp [runOver, logged, ih]

/-- Texts are written over some nodes as changes of them. -/
theorem writeOver_eq (paths : List Path) (texts : List Text) (n : Node) :
    n.writeOver paths texts = n.changeEach overwrite (paths.zip texts) := by
  induction paths generalizing texts n with
  | nil => rfl
  | cons path paths ih =>
      cases texts with
      | nil => rfl
      | cons text texts => rw [writeOver, ih, List.zip_cons_cons, changeEach_cons]

theorem map_fst_zip_sublist (paths : List Path) (texts : List Text) :
    ((paths.zip texts).map Prod.fst).Sublist paths := by
  induction paths generalizing texts with
  | nil => exact List.nil_sublist _
  | cons path paths ih =>
      cases texts with
      | nil => exact List.nil_sublist _
      | cons text texts => exact (ih texts).cons_cons path

/-- Texts written over nodes of which none is below another leave all other nodes as they
are, and the nodes below those as well. -/
theorem at?_writeOver (texts : List Text)
    (hpaths : paths.Pairwise fun p q => ¬p <+: q ∧ ¬q <+: p) :
    (∀ p, (∀ path ∈ paths, ¬path <+: p ∧ ¬p <+: path) →
        (n.writeOver paths texts).at? p = n.at? p) ∧
      (∀ p ∉ paths, ((n.writeOver paths texts).at? p).map own = (n.at? p).map own) ∧
      ∀ path text, (path, text) ∈ paths.zip texts →
        (n.writeOver paths texts).at? path = (n.at? path).map (overwrite text) := by
  have hsublist := map_fst_zip_sublist paths texts
  rw [writeOver_eq]
  refine ⟨fun p hp => ?_, fun p hp => ?_, fun path text h => ?_⟩
  · exact at?_changeEach_of_apart fun path hpath => hp path (hsublist.subset hpath)
  · exact own_at?_changeEach (fun _ _ => rfl) fun hpath => hp (hsublist.subset hpath)
  · exact at?_changeEach (hpaths.sublist hsublist) h

end Writes

section Iteration

/-- Changing the text of the first open node of a category until there is none any more,
with the number of changes. -/
inductive Exhausts (c : Category) (mutator : Mutator σ) : Node → σ → Node → Nat → σ → Prop where
  | done {n : Node} {s : σ} (h : n.replaceWith c 0 mutator s = .error (.noMatch c)) :
      Exhausts c mutator n s n 0 s
  | again {n n' m : Node} {s s' t : σ} {k : Nat}
      (h : n.replaceWith c 0 mutator s = .ok (n', s')) (rest : Exhausts c mutator n' s' m k t) :
      Exhausts c mutator n s m (k + 1) t

theorem Exhausts.deterministic (run : Exhausts c mutator n s m k t) :
    ∀ {m' k' t'}, Exhausts c mutator n s m' k' t' → (m', k', t') = (m, k, t) := by
  induction run with
  | done h =>
      intro m' k' t' run'
      cases run' with
      | done _ => rfl
      | again h' _ => rw [h] at h'; cases h'
  | again h _ ih =>
      intro m' k' t' run'
      cases run' with
      | done h' => rw [h] at h'; cases h'
      | again h' rest' =>
          obtain ⟨rfl, rfl⟩ := Prod.mk.inj (Except.ok.inj (h.symm.trans h'))
          obtain ⟨rfl, rfl, rfl⟩ := by simpa using ih rest'
          rfl

theorem replaceWith_of_nil (h : n.openPaths c = []) :
    n.replaceWith c 0 mutator s = .error (.noMatch c) := by
  have hcount : n.countOpen c = 0 := by rw [← length_openPaths, h, List.length_nil]
  rw [replaceWith, select_eq_error (Nat.le_of_eq hcount), if_pos hcount]
  rfl

theorem replaceWith_of_cons (h : n.openPaths c = path :: paths) :
    ∃ x, OpenAt n path x ∧ n.replaceWith c 0 mutator s =
      .ok (n.modifyAt (overwrite (mutator s x.text).1) path, (mutator s x.text).2) := by
  obtain ⟨x, hx, _⟩ := exists_openAt_of_select (select_zero h)
  exact ⟨x, hx, replaceWith_of_select (select_zero h) hx.at?⟩

/-- Changing the first open node until there is none comes to the same as the pass. -/
theorem Exhausts.overwriteOutermost_eq (run : Exhausts c mutator n s m k t) :
    overwriteOutermost c mutator n s = (m, k, t) := by
  induction run with
  | @done n s h =>
      cases hpaths : n.openPaths c with
      | nil => exact overwriteOutermost_eq_self hpaths
      | cons path paths =>
          obtain ⟨x, _, hfirst⟩ := replaceWith_of_cons hpaths
          rw [hfirst] at h
          cases h
  | @again n n' m s s' t k h rest ih =>
      cases hpaths : n.openPaths c with
      | nil =>
          rw [replaceWith_of_nil hpaths] at h
          cases h
      | cons path paths =>
          obtain ⟨x, hx, hfirst⟩ := replaceWith_of_cons hpaths
          obtain ⟨rfl, rfl⟩ := Prod.mk.inj (Except.ok.inj (hfirst.symm.trans h))
          rw [overwriteOutermost_step hpaths hx.at?, ih, addChange]

/-- The texts change at the outermost open nodes, in document order. -/
theorem exhausts_writeOver (c : Category) (mutator : Mutator σ) (n : Node) (s : σ) :
    Exhausts c mutator n s
      (n.writeOver (Path.outermost (n.openPaths c))
        (mutator.runOver (n.textsAt (Path.outermost (n.openPaths c))) s).1)
      (Path.outermost (n.openPaths c)).length
      (mutator.runOver (n.textsAt (Path.outermost (n.openPaths c))) s).2 := by
  induction hk : (n.openPaths c).length using Nat.strong_induction_on generalizing n s with
  | _ k ih =>
      cases hpaths : n.openPaths c with
      | nil => exact .done (replaceWith_of_nil hpaths)
      | cons path paths =>
          have hsorted : (path :: paths).Pairwise Path.Precedes :=
            hpaths ▸ openPaths_pairwise c n
          obtain ⟨x, hx, hfirst⟩ : ∃ x, OpenAt n path x ∧ n.replaceWith c 0 mutator s =
              .ok (n.modifyAt (overwrite (mutator s x.text).1) path, (mutator s x.text).2) :=
            replaceWith_of_cons hpaths
          generalize hn' : n.modifyAt (overwrite (mutator s x.text).1) path = n' at hfirst
          have hopen : n'.openPaths c = paths.filter fun q => ¬path <+: q := by
            rw [← hn', hx.openPaths_modifyAt rfl, hpaths, List.filter_cons_of_neg (by simp)]
          have hshorter : (n'.openPaths c).length < k := by
            rw [hopen, ← hk, hpaths, List.length_cons]
            exact Nat.lt_succ_of_le (List.length_filter_le _ _)
          have hapart := Path.outermost_pairwise hsorted
          rw [Path.outermost_cons hsorted, ← hopen] at hapart ⊢
          have htexts : n'.textsAt (Path.outermost (n'.openPaths c)) =
              n.textsAt (Path.outermost (n'.openPaths c)) := by
            refine List.map_congr_left fun q hq => ?_
            obtain ⟨hbefore, hafter⟩ := List.rel_of_pairwise_cons hapart hq
            rw [← hn', at?_modifyAt_of_apart hbefore hafter]
          have hhead : n.textsAt (path :: Path.outermost (n'.openPaths c)) =
              x.text :: n.textsAt (Path.outermost (n'.openPaths c)) := by
            rw [textsAt, List.map_cons, hx.at?]
            rfl
          have hrest := ih _ hshorter n' (mutator s x.text).2 rfl
          rw [htexts] at hrest
          rw [hhead, Mutator.runOver, writeOver, hn']
          exact .again hfirst hrest

/-- Changing all texts of a category is changing the first one until there is none any
more. Both make the same tree, count the same changes, leave the mutator in the same state
and call it with the same texts, and if there is nothing to change, nothing happens and
this is reported. The texts are those of the outermost open nodes at the start, in document
order. What the mutator makes of them is written over these nodes, no other node changes,
and no open node of the category is left. -/
theorem replaceAll_is_iteration (c : Category) (mutator : Mutator σ) (n : Node) (s : σ) :
    ∃ (m : Node) (texts changed : List Text) (t : σ),
      (∀ m' k t', Exhausts c mutator n s m' k t' ↔ (m', k, t') = (m, texts.length, t)) ∧
        (∀ m' k t', Exhausts c mutator.logged n (s, []) m' k t' ↔
          (m', k, t') = (m, texts.length, t, texts)) ∧
        n.replaceAll c mutator s =
          (if texts = [] then .error (.noMatch c) else .ok (m, texts.length, t)) ∧
        n.replaceAll c mutator.logged (s, []) =
          (if texts = [] then .error (.noMatch c) else .ok (m, texts.length, t, texts)) ∧
        (texts = [] → overwriteOutermost c mutator n s = (n, 0, s) ∧ m = n ∧ t = s) ∧
        texts = n.textsAt (Path.outermost (n.openPaths c)) ∧
        mutator.runOver texts s = (changed, t) ∧
        List.Forall₂ (fun path text => m.at? path = (n.at? path).map (overwrite text))
          (Path.outermost (n.openPaths c)) changed ∧
        (∀ p ∉ Path.outermost (n.openPaths c), (m.at? p).map own = (n.at? p).map own) ∧
        m.countOpen c = 0 := by
  have hrun := exhausts_writeOver c mutator n s
  have hlogged := exhausts_writeOver c mutator.logged n (s, [])
  rw [Mutator.runOver_logged, List.nil_append] at hlogged
  have hlength : (Path.outermost (n.openPaths c)).length =
      (n.textsAt (Path.outermost (n.openPaths c))).length := (List.length_map _).symm
  rw [hlength] at hrun hlogged
  obtain ⟨_, hothers, hwritten⟩ := at?_writeOver (n := n)
    (mutator.runOver (n.textsAt (Path.outermost (n.openPaths c))) s).1
    (Path.outermost_pairwise (openPaths_pairwise c n))
  have hnone := countOpen_overwriteOutermost c mutator n s
  rw [hrun.overwriteOutermost_eq] at hnone
  refine ⟨_, _, _, _, fun m' k t' => ⟨fun run => hrun.deterministic run, ?_⟩,
    fun m' k t' => ⟨fun run => hlogged.deterministic run, ?_⟩, ?_, ?_, ?_, rfl, rfl, ?_,
    hothers, hnone⟩
  · rintro ⟨⟩
    exact hrun
  · rintro ⟨⟩
    exact hlogged
  · simp [replaceAll, hrun.overwriteOutermost_eq]
  · simp [replaceAll, hlogged.overwriteOutermost_eq]
  · intro hnil
    rw [List.map_eq_nil_iff.mp hnil] at hrun ⊢
    exact ⟨hrun.overwriteOutermost_eq, rfl, rfl⟩
  · refine List.forall₂_iff_zip.mpr ⟨?_, fun {path text} h => hwritten path text h⟩
    rw [Mutator.length_runOver, hlength]

-- There are two commands, and the inner one is closed along with the outer one.
example : (parse 2 "SELECT f(g(a)) FROM t".toList).map (fun root =>
    (root.countOpen .command,
      (root.replaceAll .command (fun k text => (text.take 8, k + 1)) 0).map fun answer =>
        (answer.1.text, answer.2))) =
    .ok (2, .ok ("SELECT f".toList, 1, 1)) := by
  decide +kernel

end Iteration

end Node

end QueryTree
