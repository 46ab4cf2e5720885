import QueryTree.Proofs.Derivation.Statement
import QueryTree.Proofs.Edit.Binding
import QueryTree.Proofs.Marks.Scan
import QueryTree.Query

/-!
# Binding is substitution

A query that is bound reads as its text with the marks replaced by the literals of the
values. The marks are found by a scan of the text that minds only its quotes, and they
are where the placeholders of the tree are.
-/

namespace QueryTree

namespace Node

@[simp] theorem fillOpen_spelling (values : List Value) (n : Node) :
    (fillOpen values n).spelling = n.spelling := by
  cases hn : n.isOverwritten with
  | true => rw [fillOpen_of_overwritten hn]
  | false =>
      by_cases hc : n.category = .placeholderInject
      · rw [fillOpen_of_mark hn hc]
        cases values <;> rfl
      · rw [fillOpen_of_inner hn hc]

@[simp] theorem fillOpen_following (values : List Value) (n : Node) :
    (fillOpen values n).following = n.following := by
  cases hn : n.isOverwritten with
  | true => rw [fillOpen_of_overwritten hn]
  | false =>
      by_cases hc : n.category = .placeholderInject
      · rw [fillOpen_of_mark hn hc]
        cases values <;> rfl
      · rw [fillOpen_of_inner hn hc]

theorem tiles_fillOpenAll {values : List Value} {t rest : Text} {ns : List Node} :
    Tiles t (fillOpenAll values ns) rest ↔ Tiles t ns rest := by
  induction ns generalizing t values with
  | nil => rfl
  | cons n ns ih => simp only [fillOpenAll, Tiles, fillOpen_spelling, fillOpen_following, ih]

/-- A tree that has been filled covers the same text without gaps. -/
theorem Everywhere.tiled_fillOpen {n : Node} (h : n.Everywhere Tiled) (values : List Value) :
    (fillOpen values n).Everywhere Tiled := by
  induction n using induction_children generalizing values with
  | step n ih =>
      cases hn : n.isOverwritten with
      | true => rwa [fillOpen_of_overwritten hn]
      | false =>
          by_cases hc : n.category = .placeholderInject
          · rw [fillOpen_of_mark hn hc]
            cases values with
            | nil => exact h
            | cons value values => exact everywhere_iff.mpr ⟨h.self, fun m hm => h.child hm⟩
          · rw [fillOpen_of_inner hn hc]
            refine everywhere_iff.mpr ⟨fun hne => ?_, fun m hm => ?_⟩
            · have hchildren : n.children ≠ [] := by
                intro hnil
                exact hne (by rw [hnil]; rfl)
              exact tiles_fillOpenAll.mpr (h.self hchildren)
            · obtain ⟨k, hk, rest, rfl⟩ := mem_fillOpenAll hm
              exact ih k hk (h.child hk) rest

theorem Everywhere.atomicMarks {n : Node} (h : n.Everywhere Formed) : n.AtomicMarks :=
  fun m hm hc => (h m hm).children_eq_nil (by rw [hc]; rfl)

/-- All marks of a tree that nothing has been written over are open. -/
theorem countOpen_eq_length_marks {n : Node} (h : n.Everywhere Formed) :
    n.countOpen .placeholderInject = (marks n.tokens).length := by
  rw [countOpen_eq_count _ (h.mono fun _ hm => hm.unwritten), count, nodes_placeholder h, marks]

/-- Filling a tree with values is replacing the marks among its tokens by their
literals. -/
theorem fold_fillOpen {n : Node} (h : n.Everywhere Formed) (values : List Value) :
    (fillOpen values n).fold = fillTokens n.tokens (values.map Value.literal) := by
  have hall : ∀ (ns : List Node) (values : List Value), (∀ m ∈ ns, m.Everywhere Formed) →
      (∀ m ∈ ns, ∀ values,
        (fillOpen values m).fold = fillTokens m.tokens (values.map Value.literal)) →
      ((fillOpenAll values ns).map fold).flatten =
        fillTokens (ns.flatMap tokens) (values.map Value.literal) := by
    intro ns
    induction ns with
    | nil => exact fun _ _ _ => rfl
    | cons m ns ih =>
        intro values hformed hns
        rw [fillOpenAll, List.map_cons, List.flatten_cons, hns m List.mem_cons_self,
          ih _ (fun k hk => hformed k (List.mem_cons_of_mem m hk))
            fun k hk => hns k (List.mem_cons_of_mem m hk),
          List.flatMap_cons, fillTokens_append, List.map_drop,
          countOpen_eq_length_marks (hformed m List.mem_cons_self)]
  induction n using induction_children generalizing values with
  | step n ih =>
      have hn : n.isOverwritten = false := by simp [isOverwritten, h.self.unwritten]
      by_cases hc : n.category = .placeholderInject
      · have hleaf : n.children = [] := h.atomicMarks.self hc
        rw [fillOpen_of_mark hn hc, tokens_of_whole (Or.inr hleaf), fillTokens, if_pos hc,
          fillTokens, List.append_nil]
        cases values with
        | nil => exact fold_of_isLeaf h.self.unwritten hleaf
        | cons value values => exact fold_of_replacement rfl
      · by_cases hwhole : n.category = .string ∨ n.children = []
        · have htokens := tokens_of_whole hwhole
          have hcount : n.countOpen .placeholderInject = 0 := by
            rw [countOpen_eq_length_marks h, htokens, marks_cons_of_ne hc]
            rfl
          rw [fillOpen_eq_self (Or.inr hcount), htokens, fillTokens, if_neg hc, fillTokens,
            List.append_nil]
          exact fold_eq_spelling (h.mono fun _ hm => hm.tiled) (h.mono fun _ hm => hm.unwritten)
        · obtain ⟨hstring, hchildren⟩ := not_or.mp hwhole
          obtain ⟨m, ms, hms⟩ := List.exists_cons_of_ne_nil hchildren
          rw [fillOpen_of_inner hn hc, tokens_of_parts hstring hchildren,
            ← hall n.children values (fun m hm => h.child hm) fun m hm => ih m hm (h.child hm)]
          exact fold_of_children h.self.unwritten (by rw [hms]; simp [fillOpenAll])

end Node

open Node

/-- The tokens of a source cover it. -/
theorem tiles_tokens_of_parse {depth : Nat} {q : Text} {root : Node}
    (h : parse depth q = .ok root) : Tiles q root.tokens [] := by
  obtain ⟨hcover, hfollowing⟩ := tiles_singleton.mp (derives_of_parse h).tiles
  have htiles := ((formed_of_parse h).mono fun _ hm => hm.tiled).tiles_tokens
  rwa [hcover, hfollowing] at htiles

/-- The leaves of a source cover it. -/
theorem tiles_leaves_of_parse {depth : Nat} {q : Text} {root : Node}
    (h : parse depth q = .ok root) : Tiles q root.leaves [] := by
  obtain ⟨hcover, hfollowing⟩ := tiles_singleton.mp (derives_of_parse h).tiles
  have htiles := ((formed_of_parse h).mono fun _ hm => hm.tiled).tiles_leaves
  rwa [hcover, hfollowing] at htiles

theorem isToken_of_parse {depth : Nat} {q : Text} {root n : Node}
    (h : parse depth q = .ok root) (hn : n ∈ root.tokens) : n.IsToken := by
  have hc : root.category = .statement := Phrase.label_mem_part.mp (derives_of_parse h).labels
  exact isToken_of_mem_tokens (formed_of_parse h) (by rw [hc]; rfl) hn

/-- The placeholders of a source are the marks that a scan of it meets. -/
theorem start_placeholders {depth : Nat} {q : Text} {root : Node}
    (h : parse depth q = .ok root) :
    (root.nodes .placeholderInject).map (start q) = Text.markOffsets false 0 q := by
  have hstart := markOffsets_eq_start (tiles_tokens_of_parse h)
    (fun n hn => isToken_of_parse h hn) List.suffix_rfl
  rw [Nat.sub_self] at hstart
  calc
    (root.nodes .placeholderInject).map (start q) = (marks root.tokens).map (start q) := by
      rw [nodes_placeholder (formed_of_parse h), marks]
    _ = Text.markOffsets false 0 q := hstart.symm

theorem countOpen_placeholders {depth : Nat} {q : Text} {root : Node}
    (h : parse depth q = .ok root) :
    root.countOpen .placeholderInject = (Text.markOffsets false 0 q).length := by
  rw [← start_placeholders h, List.length_map,
    countOpen_eq_count _ ((formed_of_parse h).mono fun _ hm => hm.unwritten), count]

/-- A source that is filled reads as its text with the marks replaced. -/
theorem text_fillOpen {depth : Nat} {q : Text} {root : Node} (h : parse depth q = .ok root)
    (values : List Value) :
    (fillOpen values root).text = Text.fillMarks false q (values.map Value.literal) := by
  have hformed := formed_of_parse h
  have htiled : (fillOpen values root).Everywhere Tiled :=
    (hformed.mono fun _ hm => hm.tiled).tiled_fillOpen values
  calc
    (fillOpen values root).text = (fillOpen values root).fold := text_eq_fold htiled
    _ = fillTokens root.tokens (values.map Value.literal) := fold_fillOpen hformed values
    _ = Text.fillMarks false q (values.map Value.literal) :=
      (fillMarks_eq_fillTokens (tiles_tokens_of_parse h)
        (fun n hn => isToken_of_parse h hn) _).symm

theorem Query.bind_eq_ok {depth : Nat} {q out : Text} {typed : List Text} {forceText : Bool} :
    Query.bind depth q typed forceText = .ok out ↔
      ∃ root bound count, parse depth q = .ok root ∧
        root.bind (typed.map fun t => Value.ofTyped t forceText) = .ok (bound, count) ∧
        bound.text = out := by
  unfold Query.bind Query.read
  cases hparse : parse depth q with
  | error e => simp [Except.mapError, Bind.bind, Except.bind]
  | ok root =>
      cases hbind : root.bind (typed.map fun t => Value.ofTyped t forceText) with
      | error e => simp [hbind, Except.mapError, Bind.bind, Except.bind]
      | ok answer =>
          obtain ⟨bound, count⟩ := answer
          simp [hbind, Except.mapError, Bind.bind, Except.bind, Pure.pure, Except.pure]

/-- Binding is substitution in the text. A query is bound exactly if it is read and
there is one value for each mark that a scan meets, and then it reads as its text with
these marks replaced by the literals. The marks are where the placeholders begin, and
the scan meets them from left to right. -/
theorem bind_is_substitution (depth : Nat) (q : Text) :
    (∀ (typed : List Text) (forceText : Bool) (out : Text),
      Query.bind depth q typed forceText = .ok out ↔
        (∃ root, parse depth q = .ok root) ∧
          (Text.markOffsets false 0 q).length = typed.length ∧
          out = Text.fillMarks false q
            (typed.map fun t => (Value.ofTyped t forceText).literal)) ∧
      ∀ root, parse depth q = .ok root →
        (root.nodes .placeholderInject).map (start q) = Text.markOffsets false 0 q ∧
          (Text.markOffsets false 0 q).Pairwise (· < ·) := by
  refine ⟨fun typed forceText out => ?_, fun root h =>
    ⟨start_placeholders h, Text.markOffsets_pairwise false 0 q⟩⟩
  have htext : ∀ {root : Node}, parse depth q = .ok root →
      (fillOpen (typed.map fun t => Value.ofTyped t forceText) root).text =
        Text.fillMarks false q (typed.map fun t => (Value.ofTyped t forceText).literal) := by
    intro root h
    rw [text_fillOpen h, List.map_map]
    rfl
  rw [Query.bind_eq_ok]
  constructor
  · rintro ⟨root, bound, count, h, hbind, rfl⟩
    obtain ⟨hlength, rfl, _⟩ := (Node.bind_eq_ok (formed_of_parse h).atomicMarks).mp hbind
    rw [List.length_map, countOpen_placeholders h] at hlength
    exact ⟨⟨root, h⟩, hlength.symm, htext h⟩
  · rintro ⟨⟨root, h⟩, hlength, rfl⟩
    refine ⟨root, _, _, h, (Node.bind_eq_ok (formed_of_parse h).atomicMarks).mpr
      ⟨?_, rfl, rfl⟩, htext h⟩
    rw [List.length_map, countOpen_placeholders h, hlength]

theorem bind_is_substitution_mark_in_string :
    Query.bind 2 "SELECT 'it''s ?', ? FROM t".toList ["7'".toList] true =
        .ok "SELECT 'it''s ?', '7''' FROM t".toList ∧
      ∃ root, parse 2 "USE ?".toList = .ok root ∧
        (root.nodes .placeholderInject).map (start "USE ?".toList) =
          Text.markOffsets false 0 "USE ?".toList := by
  constructor
  · refine ((bind_is_substitution 2 "SELECT 'it''s ?', ? FROM t".toList).1 ["7'".toList] true
      "SELECT 'it''s ?', '7''' FROM t".toList).mpr ⟨?_, ?_, ?_⟩
    · exact exists_tree_of_isOk _ _ (by decide +kernel)
    · decide +kernel
    · decide +kernel
  · obtain ⟨root, hroot⟩ := exists_tree_of_isOk 2 "USE ?".toList (by decide +kernel)
    exact ⟨root, hroot, ((bind_is_substitution 2 "USE ?".toList).2 root hroot).1⟩

end QueryTree
