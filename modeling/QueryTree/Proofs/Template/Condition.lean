import QueryTree.Proofs.Template.Comparison

/-!
# Conditions of query templates

A condition is read comparison by comparison to its end. What is told of it are its
comparisons, each by its sides, and the bind markers among these.
-/

namespace QueryTree

open Recognizer Grammar

section Chains

variable {t rest : Text}

/-- Whether a text may follow a condition: no comparison goes on there, and no word comes
next. -/
structure ClosesCondition (t : Text) : Prop extends ClosesValue t where
  apart : EndsWord (t.dropWhile Text.isLayout)

/-- One round of a chain: a conjunction, whitespace and a comparison. -/
def chainRound : Recognizer (List Node) :=
  ((Grammar.spaced conjunction).seq (one (whitespace.required .whitespace))).seq
    (one (conditionItem.required .conditionItem))

theorem Break.whitespace_append (b : Break) (h : ∀ x ∈ t.head?, Text.isLayout x = false) :
    whitespace (b.text ++ t) = .found (Node.leaf .whitespace b.text t) t :=
  run_append ⟨b.nonempty, b.layout, h⟩

theorem Break.closesValue (b : Break) (t : Text) : ClosesValue (b.text ++ t) :=
  ⟨b.endsWord t, b.head?_ne t rfl, b.head?_ne t rfl⟩

theorem Comparison.isLayout_head? (c : Comparison) (rest : Text) :
    ∀ x ∈ (c.text ++ rest).head?, Text.isLayout x = false := by
  rw [c.text_append]
  exact isLayout_head?_word c.column.ne_nil c.column.word _

namespace Joined

variable (j : Joined)

theorem isRun_word (h : EndsWord rest) : Text.IsRun Char.isAlphanum j.word rest := by
  cases hj : j.conjunction with
  | inl w => simpa [word, hj] using w.isRun h
  | inr w => simpa [word, hj] using w.isRun h

theorem conjunction_append (h : EndsWord rest) :
    Grammar.conjunction (j.word ++ rest) = .found (Node.leaf .reservedWord j.word rest) rest := by
  refine oneOf_append (j.isRun_word h) ?_
  cases hj : j.conjunction with
  | inl w => simp [word, hj, w.spells, Keyword.upper_spelling]
  | inr w => simp [word, hj, w.spells, Keyword.upper_spelling]

/-- The nodes of a further comparison in front of a rest. -/
def nodes (rest : Text) : List Node :=
  gapNodes (j.text ++ rest) ++
    [Node.leaf .reservedWord j.word (j.after.text ++ (j.comparison.text ++ rest))] ++
    [Node.leaf .whitespace j.after.text (j.comparison.text ++ rest)] ++
    [j.comparison.node rest]

theorem chainRound_append (h : ClosesValue rest) :
    chainRound (j.text ++ rest) = .found (j.nodes rest) rest := by
  have htext : j.text ++ rest =
      j.before.text ++ (j.word ++ (j.after.text ++ (j.comparison.text ++ rest))) := by
    simp [text]
  have hends := j.after.endsWord (j.comparison.text ++ rest)
  have hrun := j.isRun_word hends
  rw [nodes, htext]
  exact seq_of_founds (seq_of_founds
    (j.before.spaced_append_found (isLayout_head?_word hrun.1 hrun.2.1 _)
      (j.conjunction_append hends))
    (one_of_found (required_of_found .whitespace
      (j.after.whitespace_append (j.comparison.isLayout_head? rest)))))
    (one_of_found (required_of_found .conditionItem
      (j.comparison.conditionItem_append .optional h)))

end Joined

/-- The nodes of further comparisons in front of a rest. -/
def joinedNodes : List Joined → Text → List Node
  | [], _ => []
  | j :: more, rest => j.nodes (more.flatMap Joined.text ++ rest) ++ joinedNodes more rest

theorem ClosesValue.joined (h : ClosesValue rest) (more : List Joined) :
    ClosesValue (more.flatMap Joined.text ++ rest) := by
  cases more with
  | nil => exact h
  | cons j more =>
      rw [List.flatMap_cons, Joined.text, List.append_assoc, List.append_assoc]
      exact j.before.closesValue _

/-- Further comparisons are read one after the other. -/
theorem rounds_joined (more : List Joined) (h : ClosesValue rest) :
    Rounds (fun _ => chainRound) (fun _ _ => ()) () (more.flatMap Joined.text ++ rest)
      (joinedNodes more rest) () rest := by
  induction more with
  | nil => exact .done () rest
  | cons j more ih =>
      rw [List.flatMap_cons, List.append_assoc]
      refine .round (j.chainRound_append (h.joined more)) ?_ ih
      have hbreak := List.length_pos_of_ne_nil j.before.nonempty
      simp only [Joined.text, List.length_append]
      omega

/-- The node of a chain of comparisons in front of a rest. -/
def chainNode (first : Comparison) (more : List Joined) (rest : Text) : Node :=
  Node.branch .conditionChain (Node.chain
    (first.node (more.flatMap Joined.text ++ rest) :: joinedNodes more rest)) rest

theorem conditionChain_append (first : Comparison) (more : List Joined)
    (h : ClosesCondition rest) :
    conditionChain .mandatory (first.text ++ (more.flatMap Joined.text ++ rest)) =
      .found (chainNode first more rest) rest := by
  have hend : chainRound rest = .absent := by
    have hword : conjunction (rest.dropWhile Text.isLayout) = .absent := oneOf_eq_absent h.apart
    refine seq_of_absent (seq_of_absent ?_)
    rw [spaced_eq, hword, Reading.map_absent]
  exact node_of_found (seq_of_founds (one_of_found
    (first.conditionItem_append .mandatory (h.toClosesValue.joined more)))
    ((rounds_joined more h.toClosesValue).repeated hend))

/-- A condition is read from `WHERE` to its last comparison. -/
theorem condition_append (w : Spelled .WHERE) (b : Break) (first : Comparison)
    (more : List Joined) (h : ClosesCondition rest) :
    let chainText := first.text ++ (more.flatMap Joined.text ++ rest)
    condition (w.text ++ (b.text ++ chainText)) =
      .found (Node.branch .condition (Node.chain [Node.leaf .whereKeyword w.text
        (b.text ++ chainText), Node.leaf .whitespace b.text chainText,
        chainNode first more rest]) rest) rest := by
  intro chainText
  have hwhere : whereKeyword (w.text ++ (b.text ++ chainText)) =
      .found (Node.leaf .whereKeyword w.text (b.text ++ chainText)) (b.text ++ chainText) :=
    oneOf_append (w.isRun (b.endsWord _)) (by simp [w.spells, Keyword.upper_spelling])
  exact node_of_found (seq_of_founds (seq_of_founds (one_of_found hwhere)
    (one_of_found (required_of_found .whitespace
      (b.whitespace_append (first.isLayout_head? _)))))
    (one_of_found (conditionChain_append first more h)))

end Chains

/-- The categories by which a template with a condition is told. -/
def isSelectPart : Category → Bool
  | .tableName | .fieldName | .placeholderInject | .conditionItem => true
  | _ => false

theorem skipsWords_isSelectPart : Node.SkipsWords isSelectPart :=
  ⟨rfl, rfl, rfl, rfl, rfl⟩

theorem skipsNames_isSelectPart : Node.SkipsNames isSelectPart :=
  ⟨rfl, rfl, rfl⟩

/-- The texts of the parts of a node that are no whitespace. -/
def Node.sides (n : Node) : List Text :=
  (n.children.filter fun m => m.category ≠ .whitespace).map Node.text

/-- The sides of a node that nothing has been written over. -/
def Node.spelledSides (n : Node) : List Text :=
  (n.children.filter fun m => m.category ≠ .whitespace).map Node.spelling

/-- The sides of the comparisons in a tree. -/
def Node.comparisonSides (n : Node) : List (List Text) :=
  n.told (fun d => d = .conditionItem) Node.spelledSides

theorem Node.comparisonSides_branch {c : Category} (hc : c ≠ .conditionItem) (ns : List Node)
    (rest : Text) : (Node.branch c ns rest).comparisonSides = ns.flatMap comparisonSides :=
  told_branch (decide_eq_false hc) ns rest

theorem Node.flatMap_comparisonSides_chain (ns : List Node) :
    (Node.chain ns).flatMap comparisonSides = ns.flatMap comparisonSides := by
  change (Node.chain ns).flatMap (told (fun d => d = .conditionItem) spelledSides) = _
  exact flatMap_told_chain (fun _ _ _ => rfl) ns

theorem Node.flatMap_comparisonSides_gapNodes (t : Text) :
    (gapNodes t).flatMap comparisonSides = [] := by
  change (gapNodes t).flatMap (told (fun d => d = .conditionItem) spelledSides) = _
  exact flatMap_told_gapNodes rfl t

/-- There are no sides where no comparison is noted. -/
theorem Node.comparisonSides_eq_nil {n : Node} {labels : List Label}
    (hnoted : n.noted isSelectPart = labels) (h : ∀ l ∈ labels, l.1 ≠ .conditionItem) :
    n.comparisonSides = [] := by
  have hkeep : isSelectPart .conditionItem = true := rfl
  exact told_eq_nil_of_noted hkeep (hnoted ▸ h)

theorem Node.spelledSides_branch (c : Category) (ns : List Node) (rest : Text) :
    (Node.branch c (Node.chain ns) rest).spelledSides =
      (ns.filter fun m => m.category ≠ .whitespace).map Node.spelling := by
  have hchain : (Node.chain ns).map Node.label = ns.map Node.label :=
    Node.map_chain (fun _ _ _ => rfl) ns
  have hsides := congrArg (fun ls : List Label =>
    (ls.filter fun l => l.1 ≠ .whitespace).map Prod.snd) hchain
  simp only [List.filter_map, List.map_map] at hsides
  exact hsides

/-- What an operand notes: the bind marker that it is, if it is one. -/
def Operand.labels : Operand → List Label
  | mark => [(.placeholderInject, ['?'])]
  | _ => []

/-- What a comparison notes: itself and its bind marker. -/
def Comparison.labels (c : Comparison) : List Label :=
  (.conditionItem, c.text) :: c.value.labels

theorem Comparison.category_of_mem_labels {c : Comparison} {l : Label} (h : l ∈ c.labels) :
    l.1 = .conditionItem ∨ l.1 = .placeholderInject := by
  rcases List.mem_cons.mp h with rfl | h
  · exact Or.inl rfl
  · cases hv : c.value with
    | mark =>
        rw [hv] at h
        exact Or.inr (List.mem_singleton.mp h ▸ rfl)
    | number digits _ _ => rw [hv] at h; cases h
    | string s => rw [hv] at h; cases h

section Notes

variable (rest : Text)

theorem noted_literalNode (n : Node) :
    (literalNode n rest).noted isSelectPart = n.noted isSelectPart := by
  rw [literalNode, Node.noted_branch rfl, Node.flatMap_noted_chain, List.flatMap_singleton,
    Node.noted_branch rfl, Node.flatMap_noted_chain, List.flatMap_singleton]

theorem noted_quotation (s : Text) : (quotation s rest).noted isSelectPart = [] := by
  rw [quotation, Node.noted_branch rfl, Node.flatMap_noted_chain]
  cases s <;> rfl

theorem Operand.noted_node (v : Operand) : (v.node rest).noted isSelectPart = v.labels := by
  cases v with
  | mark => rfl
  | number digits _ _ =>
      rw [node, noted_literalNode]
      rfl
  | string s =>
      rw [node, noted_literalNode, noted_quotation]
      rfl

namespace Comparison

variable (c : Comparison)

theorem noted_column (t : Text) :
    ((Reference.plain c.column).node .selectorItem t).noted isSelectPart = [] := by
  rw [Reference.node, Node.noted_branch rfl, Node.flatMap_noted_chain, List.flatMap_singleton,
    c.column.noted_node skipsNames_isSelectPart]

theorem noted_operator (t : Text) :
    (Node.leaf c.operator.category c.operator.text t).noted isSelectPart = [] := by
  rw [Node.noted_leaf]
  cases c.operator <;> rfl

theorem node_spelling : (c.node rest).spelling = c.text := by
  have hoperator : ((gapNodes (c.operatorText rest)).map Node.spelling).flatten =
      c.beforeOperator.text := c.beforeOperator.flatten_gapNodes (c.isLayout_head?_operator rest)
  have hvalue : ((gapNodes (c.valueText rest)).map Node.spelling).flatten =
      c.afterOperator.text := c.afterOperator.flatten_gapNodes (c.isLayout_head?_value rest)
  change ((Node.chain (c.parts rest)).map Node.spelling).flatten = _
  rw [Node.map_spelling_chain]
  simp [parts, hoperator, hvalue, Reference.text, Node.leaf, text]

theorem noted_node : (c.node rest).noted isSelectPart = c.labels := by
  rw [labels, ← c.node_spelling rest, node, Node.noted_branch_of_keep rfl,
    Node.flatMap_noted_chain, parts]
  simp only [List.flatMap_append, List.flatMap_singleton, c.noted_column, c.noted_operator,
    Node.flatMap_noted_gapNodes skipsWords_isSelectPart, c.value.noted_node]
  rfl

theorem spelledSides_node : (c.node rest).spelledSides = c.sides := by
  have hoperator : c.operator.category ≠ .whitespace := by cases c.operator <;> decide
  have hvalue : (c.value.node rest).category ≠ .whitespace := by cases c.value <;> nofun
  rw [node, Node.spelledSides_branch, parts]
  simp only [List.filter_append, filter_gapNodes, List.nil_append]
  rw [List.filter_eq_self.mpr, List.filter_eq_self.mpr, List.filter_eq_self.mpr]
  · simp [Reference.text, Node.leaf, sides]
  · simpa using hvalue
  · simpa [Node.leaf] using hoperator
  · simp [Reference.node, Node.branch]

/-- There is no comparison in a comparison. -/
theorem comparisonSides_parts : (c.parts rest).flatMap Node.comparisonSides = [] := by
  have hcolumn := Node.comparisonSides_eq_nil (c.noted_column (c.operatorText rest)) nofun
  have hoperator := Node.comparisonSides_eq_nil (c.noted_operator (c.valueText rest)) nofun
  have hvalue := Node.comparisonSides_eq_nil (c.value.noted_node rest)
    (by cases c.value <;> simp [Operand.labels])
  simp only [parts, List.flatMap_append, List.flatMap_singleton,
    Node.flatMap_comparisonSides_gapNodes, List.append_nil, hcolumn, hoperator, hvalue]

theorem comparisonSides_node : (c.node rest).comparisonSides = [c.sides] := by
  rw [← c.spelledSides_node rest, Node.comparisonSides, node, Node.told_branch_of_keep rfl]
  have hparts := c.comparisonSides_parts rest
  rw [← Node.flatMap_comparisonSides_chain] at hparts
  exact congrArg _ hparts

end Comparison

theorem Joined.noted_nodes (j : Joined) :
    (j.nodes rest).flatMap (Node.noted isSelectPart) = j.comparison.labels := by
  simp only [nodes, List.flatMap_append, List.flatMap_singleton, j.comparison.noted_node,
    Node.flatMap_noted_gapNodes skipsWords_isSelectPart, Node.noted_leaf]
  rfl

theorem Joined.comparisonSides_nodes (j : Joined) :
    (j.nodes rest).flatMap Node.comparisonSides = [j.comparison.sides] := by
  simp only [nodes, List.flatMap_append, List.flatMap_singleton,
    j.comparison.comparisonSides_node, Node.flatMap_comparisonSides_gapNodes]
  rfl

theorem noted_joinedNodes (more : List Joined) :
    (joinedNodes more rest).flatMap (Node.noted isSelectPart) =
      more.flatMap fun j => j.comparison.labels := by
  induction more with
  | nil => rfl
  | cons j more ih => rw [joinedNodes, List.flatMap_append, j.noted_nodes, ih, List.flatMap_cons]

theorem comparisonSides_joinedNodes (more : List Joined) :
    (joinedNodes more rest).flatMap Node.comparisonSides =
      more.map fun j => j.comparison.sides := by
  induction more with
  | nil => rfl
  | cons j more ih =>
      rw [joinedNodes, List.flatMap_append, j.comparisonSides_nodes, ih, List.map_cons]
      rfl

end Notes

/-- A condition is told by its comparisons. -/
theorem exists_condition {rest : Text} (w : Spelled .WHERE) (b : Break) (first : Comparison)
    (more : List Joined) (h : ClosesCondition rest) :
    ∃ n, condition (w.text ++ (b.text ++ (first.text ++ (more.flatMap Joined.text ++ rest)))) =
        .found n rest ∧
      n.noted isSelectPart = (first :: more.map Joined.comparison).flatMap Comparison.labels ∧
      n.comparisonSides = (first :: more.map Joined.comparison).map Comparison.sides := by
  refine ⟨_, condition_append w b first more h, ?_, ?_⟩
  · rw [Node.noted_branch rfl, Node.flatMap_noted_chain, List.flatMap_cons, List.flatMap_cons,
      List.flatMap_singleton, chainNode, Node.noted_branch rfl, Node.flatMap_noted_chain,
      List.flatMap_cons, first.noted_node, noted_joinedNodes, List.flatMap_cons,
      List.flatMap_map]
    rfl
  · rw [Node.comparisonSides_branch (by decide), Node.flatMap_comparisonSides_chain,
      List.flatMap_cons, List.flatMap_cons, List.flatMap_singleton, chainNode,
      Node.comparisonSides_branch (by decide), Node.flatMap_comparisonSides_chain,
      List.flatMap_cons, first.comparisonSides_node, comparisonSides_joinedNodes, List.map_cons,
      List.map_map]
    rfl

end QueryTree
