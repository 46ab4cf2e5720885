import QueryTree.Proofs.Template.Condition

/-!
# Templates that select rows

A template that selects rows names some fields and a table, and compares columns with bind
markers, numbers and strings. However it is spelled and spaced, and however long its lists
are, its names are told apart as fields, table and columns, and its comparisons are those
that are written.
-/

namespace QueryTree

open Recognizer Grammar

/-- The end of a query: whitespace, perhaps with a `;` in it. -/
structure Ending where
  gap : Gap
  terminated : Option Gap

/-- How the end of a query is written behind its first whitespace. -/
def Ending.tail (e : Ending) : Text :=
  match e.terminated with
  | none => []
  | some g => ';' :: g.text

def Ending.text (e : Ending) : Text :=
  e.gap.text ++ e.tail

/-- A query of the form `SELECT field, ... FROM table WHERE column = value AND ...`. -/
structure SelectTemplate where
  beginning : Gap
  select : Spelled .SELECT
  afterSelect : Break
  field : Identifier
  /-- After `SELECT` these two keywords are no fields. -/
  field_ne_distinct : Text.upper field.text ≠ Keyword.DISTINCT.spelling
  field_ne_json : Text.upper field.text ≠ Keyword.JSON.spelling
  moreFields : List (Further Identifier)
  beforeFrom : Break
  fromWord : Spelled .FROM
  afterFrom : Break
  table : Reference
  beforeWhere : Break
  whereWord : Spelled .WHERE
  afterWhere : Break
  comparison : Comparison
  moreComparisons : List Joined
  ending : Ending

namespace SelectTemplate

variable (q : SelectTemplate)

def fields : List Identifier :=
  q.field :: q.moreFields.map Further.entry

def comparisons : List Comparison :=
  q.comparison :: q.moreComparisons.map Joined.comparison

/-- What follows `WHERE`. -/
def comparisonsText : Text :=
  q.afterWhere.text ++ (q.comparison.text ++
    (q.moreComparisons.flatMap Joined.text ++ q.ending.text))

/-- What follows the table. -/
def whereText : Text :=
  q.beforeWhere.text ++ (q.whereWord.text ++ q.comparisonsText)

/-- What follows `FROM`. -/
def tableText : Text :=
  q.afterFrom.text ++ (q.table.text ++ q.whereText)

/-- What follows the fields. -/
def fromText : Text :=
  q.beforeFrom.text ++ (q.fromWord.text ++ q.tableText)

/-- What follows `SELECT`. -/
def fieldsText : Text :=
  q.afterSelect.text ++ (q.field.text ++
    (q.moreFields.flatMap (Further.text Identifier.text) ++ q.fromText))

/-- How a template is written. -/
def text : Text :=
  q.beginning.text ++ (q.select.text ++ q.fieldsText)

end SelectTemplate

/-- The context among the fields, before one of them if `column` is true and after it
otherwise. -/
def inFields (column : Bool) : NameContext :=
  ⟨false, true, column, .none⟩

/-- Each of the fields is the name of a column. -/
theorem readsEntry_field (room : Nat) :
    ReadsEntry isSelectPart room Identifier.text (fun w => [(.fieldName, w.text)])
      (inFields true) (inFields false) where
  head w rest := (Reference.plain w).isLayout_head? rest
  item w rest h := by
    refine ⟨_, (Reference.plain w).commandItem_append room _ h, ?_, rfl⟩
    exact Reference.noted_node skipsNames_isSelectPart rfl (.plain w) rest

theorem isSolitary_from : Keyword.IsSolitary .FROM :=
  ⟨by decide, rfl, fun l => by cases l <;> rfl⟩

theorem pairs_from (k : Keyword) : Keyword.pairs k .FROM = false := by
  cases k <;> rfl

theorem pairs_where (k : Keyword) : Keyword.pairs k .WHERE = false := by
  cases k <;> rfl

namespace Ending

variable (e : Ending)

theorem eq_of_mem_head?_tail {x : Char} (h : x ∈ e.tail.head?) : x = ';' := by
  cases he : e.terminated with
  | none => simp [tail, he] at h
  | some g =>
      rw [tail, he] at h
      exact (Option.some.inj h).symm

theorem isLayout_head?_tail : ∀ x ∈ e.tail.head?, Text.isLayout x = false :=
  fun _ hx => e.eq_of_mem_head?_tail hx ▸ rfl

theorem endsWord_tail : EndsWord e.tail :=
  fun _ hx => e.eq_of_mem_head?_tail hx ▸ rfl

theorem dropWhile_text : e.text.dropWhile Text.isLayout = e.tail :=
  e.gap.dropWhile_append e.isLayout_head?_tail

/-- No comparison goes on at the end of a query, and no word comes there. -/
theorem closesCondition : ClosesCondition e.text := by
  have hhead : ∀ x ∈ e.text.head?, x.isAlphanum = false ∧ x ≠ '-' ∧ x ≠ '\'' := by
    refine e.gap.forall_head? (fun x hx => ⟨isAlphanum_eq_false_of_isLayout hx, ?_, ?_⟩) ?_
    · rintro rfl
      cases hx
    · rintro rfl
      cases hx
    · intro x hx
      rw [e.eq_of_mem_head?_tail hx]
      decide
  refine ⟨⟨fun x hx => (hhead x hx).1, fun h => (hhead _ h).2.1 rfl,
    fun h => (hhead _ h).2.2 rfl⟩, ?_⟩
  rw [e.dropWhile_text]
  exact e.endsWord_tail

/-- At the end of a query there is nothing that is told. -/
theorem exists_terminator : ∃ ns last,
    Recognizer.optional (Grammar.spaced terminator) e.text = .found ns last ∧
      last.dropWhile Text.isLayout = [] ∧ ns.flatMap (Node.noted isSelectPart) = [] ∧
      ns.flatMap Node.comparisonSides = [] := by
  have hgap : ∀ g : Gap, g.text.dropWhile Text.isLayout = [] := fun g => by
    simpa using g.dropWhile_append (t := []) nofun
  cases he : e.terminated with
  | none =>
      have htail : e.tail = [] := by rw [tail, he]
      refine ⟨[], e.text, optional_of_absent ?_, ?_, rfl, rfl⟩
      · refine e.gap.spaced_append_absent e.isLayout_head?_tail ?_
        rw [htail]
        rfl
      · rw [e.dropWhile_text, htail]
  | some g =>
      have htail : e.tail = ';' :: g.text := by rw [tail, he]
      have hterminator : terminator e.tail = .found (Node.leaf .terminator [';'] g.text) g.text := by
        rw [htail]
        exact delimiter_cons ';' .terminator g.text
      refine ⟨_, g.text, optional_of_found (e.gap.spaced_append_found e.isLayout_head?_tail
        hterminator), hgap g, ?_, ?_⟩
      · rw [List.flatMap_append, Node.flatMap_noted_gapNodes skipsWords_isSelectPart]
        rfl
      · rw [List.flatMap_append, Node.flatMap_comparisonSides_gapNodes]
        rfl

end Ending

namespace SelectTemplate

variable (q : SelectTemplate)

theorem closesName_whereText : ClosesName q.whereText :=
  q.beforeWhere.closesName q.whereWord pairs_where (q.afterWhere.endsWord _)

theorem closesName_fromText : ClosesName q.fromText :=
  q.beforeFrom.closesName q.fromWord pairs_from (q.afterFrom.endsWord _)

/-- What follows the first field. -/
theorem closesName_moreFields :
    ClosesName (q.moreFields.flatMap (Further.text Identifier.text) ++ q.fromText) := by
  cases q.moreFields with
  | nil => exact q.closesName_fromText
  | cons e more =>
      rw [List.flatMap_cons, Further.text, List.append_assoc, List.append_assoc]
      exact e.before.closesName rfl _

/-- The command that `FROM` opens, with the table. -/
theorem command_from (room : Nat) :
    ∃ n, command (room + 1) (q.fromWord.text ++ q.tableText) = .found n q.whereText ∧
      n.noted isSelectPart = [(.tableName, q.table.text)] := by
  have htable : leadingWord (q.tableText.dropWhile Text.isLayout) = .absent := by
    rw [tableText, q.afterFrom.dropWhile_append (q.table.isLayout_head? _)]
    exact q.table.leadingWord_append q.closesName_whereText
  have hwords := q.fromWord.readsWords_single isSolitary_from skipsWords_isSelectPart
    (q.afterFrom.endsWord _) htable
  have hitems := Items.item skipsWords_isSelectPart q.afterFrom.toGap
    (q.table.isLayout_head? q.whereText)
    (q.table.commandItem_append room (NameContext.ofKeywords [.FROM]) q.closesName_whereText)
  have hwhere := q.whereWord.leadingWord_where (q.afterWhere.endsWord
    (q.comparison.text ++ (q.moreComparisons.flatMap Joined.text ++ q.ending.text)))
  -- even if no level is left, for `WHERE` leads no run of keywords
  have hnext : Recognizer.optional (Grammar.spaced (command room)) q.whereText =
      .found [] q.whereText :=
    optional_of_absent (q.beforeWhere.spaced_append_absent (q.whereWord.isLayout_head? _)
      (command_eq_absent room hwhere))
  obtain ⟨n, hn, hnoted⟩ := command_of_items skipsWords_isSelectPart hwords hitems
    (q.beforeWhere.spaced_append_absent (q.whereWord.isLayout_head? _)
      (q.whereWord.commandItem_where (q.afterWhere.endsWord _) room _)) hnext
  refine ⟨n, hn, hnoted.trans ?_⟩
  rw [Reference.noted_node skipsNames_isSelectPart rfl]
  rfl

/-- The first field is not paired with `SELECT`. -/
theorem pairs_field {n : Node} {rest : Text}
    (h : commandWord (q.field.text ++
      (q.moreFields.flatMap (Further.text Identifier.text) ++ q.fromText)) = .found n rest) :
    (Keyword.ofText? n.spelling).any (Keyword.pairs .SELECT) = false := by
  obtain ⟨_, _, rfl, -⟩ := word_eq_found.mp h
  change (Keyword.ofText? (List.takeWhile _ _)).any _ = _
  rw [(q.field.isRun q.closesName_moreFields.ends).takeWhile_append]
  cases hword : Keyword.ofText? q.field.text with
  | none => rfl
  | some k =>
      have hdistinct := q.field_ne_distinct
      have hjson := q.field_ne_json
      rw [Keyword.upper_eq_of_ofText? hword] at hdistinct hjson
      cases k <;> first | rfl | exact absurd rfl hdistinct | exact absurd rfl hjson

theorem dropWhile_fieldsText : q.fieldsText.dropWhile Text.isLayout =
    q.field.text ++ (q.moreFields.flatMap (Further.text Identifier.text) ++ q.fromText) :=
  q.afterSelect.dropWhile_append (isLayout_head?_word q.field.ne_nil q.field.word _)

/-- `SELECT` is a run of keywords of its own. -/
theorem readsWords_select :
    ReadsWords isSelectPart (q.select.text ++ q.fieldsText) [.SELECT] q.fieldsText := by
  have hcloses := q.closesName_moreFields
  have hfield : leadingWord (q.fieldsText.dropWhile Text.isLayout) = .absent := by
    rw [q.dropWhile_fieldsText]
    exact q.field.leadingWord_append hcloses.ends (hcloses.unpaired _)
  exact q.select.readsWords_alone (by decide) rfl skipsWords_isSelectPart
    (q.afterSelect.endsWord _) (q.select.spaced_continuingWord hfield
      fun n rest h => q.pairs_field (q.dropWhile_fieldsText ▸ h))

/-- What a template says: its fields, its table and its comparisons. -/
def labels : List Label :=
  (q.fields.map fun w => (.fieldName, w.text)) ++
    ((.tableName, q.table.text) :: q.comparisons.flatMap Comparison.labels)

/-- The command that `SELECT` opens, with the fields and the command that continues it. -/
theorem command_select (room : Nat) :
    ∃ n, command (room + 2) (q.select.text ++ q.fieldsText) = .found n q.whereText ∧
      n.noted isSelectPart =
        (q.fields.map fun w => (.fieldName, w.text)) ++ [(.tableName, q.table.text)] := by
  have hitems := (readsEntry_field (room + 1)).items_row skipsWords_isSelectPart rfl q.field
    q.moreFields q.afterSelect.toGap q.closesName_fromText
  have hfrom := q.fromWord.leadingWord_append (by decide) rfl (q.afterFrom.endsWord
    (q.table.text ++ q.whereText))
  have hend : Grammar.spaced (commandItem (room + 1) (inFields false)) q.fromText = .absent :=
    q.beforeFrom.spaced_append_absent (q.fromWord.isLayout_head? _)
      (commandItem_eq_absent rfl hfrom)
  obtain ⟨m, hm, htable⟩ := q.command_from room
  have hnext := optional_of_found
    (q.beforeFrom.spaced_append_found (q.fromWord.isLayout_head? _) hm)
  obtain ⟨n, hn, hnoted⟩ := command_of_items skipsWords_isSelectPart q.readsWords_select hitems
    hend hnext
  refine ⟨n, hn, hnoted.trans ?_⟩
  rw [List.flatMap_append, Node.flatMap_noted_gapNodes skipsWords_isSelectPart, List.nil_append,
    List.flatMap_singleton, htable, fields, List.map_cons, List.map_map, List.map_eq_flatMap]
  rfl

/-- The tree of a template, told by its names, its bind markers and its comparisons. -/
theorem exists_tree (room : Nat) :
    ∃ root, parse (room + 2) q.text = .ok root ∧ root.noted isSelectPart = q.labels ∧
      root.comparisonSides = q.comparisons.map Comparison.sides := by
  obtain ⟨n, hn, hfields⟩ := q.command_select room
  obtain ⟨m, hm, hcomparisons, hsides⟩ := exists_condition q.whereWord q.afterWhere q.comparison
    q.moreComparisons q.ending.closesCondition
  obtain ⟨ns, last, hend, hlast, hnone, hnone'⟩ := q.ending.exists_terminator
  have hfront : q.text.dropWhile Text.isLayout = q.select.text ++ q.fieldsText :=
    q.beginning.dropWhile_append (q.select.isLayout_head? _)
  have hcommand : Recognizer.optional (Grammar.spaced (command (room + 2))) q.ending.text =
      .found [] q.ending.text :=
    optional_of_absent (q.ending.gap.spaced_append_absent q.ending.isLayout_head?_tail
      (command_eq_absent _ (leadingWord_eq_absent q.ending.endsWord_tail)))
  have hcondition := optional_of_found (seq_of_founds
    (q.beforeWhere.spaced_append_found (q.whereWord.isLayout_head? _) hm) hcommand)
  rw [← hfront] at hn
  refine ⟨_, parse_of_parts hn hcondition hend hlast, ?_, ?_⟩
  · have hgap := Node.flatMap_noted_gapNodes skipsWords_isSelectPart
    rw [Node.noted_branch rfl]
    simp only [List.flatMap_append, List.flatMap_singleton, hgap, hfields, hcomparisons, hnone,
      List.append_nil, List.nil_append]
    rw [labels, List.append_assoc]
    rfl
  · -- the command has no comparisons, as it has noted none
    have hnames : n.comparisonSides = [] := by
      refine Node.comparisonSides_eq_nil hfields fun l hl => ?_
      rcases List.mem_append.mp hl with hl | hl
      · obtain ⟨w, _, rfl⟩ := List.mem_map.mp hl
        nofun
      · rw [List.mem_singleton.mp hl]
        nofun
    change (Node.branch .statement _ _).comparisonSides = _
    rw [Node.comparisonSides_branch (by decide)]
    simp only [List.flatMap_append, List.flatMap_singleton,
      Node.flatMap_comparisonSides_gapNodes, hnames, hsides, hnone', List.append_nil,
      List.nil_append]
    rfl

end SelectTemplate

section Labels

variable (cs : List Comparison)

/-- Comparisons note neither fields nor tables. -/
theorem filter_labels {c : Category} (hitem : c ≠ .conditionItem)
    (hmark : c ≠ .placeholderInject) :
    (cs.flatMap Comparison.labels).filter (fun l => l.1 = c) = [] := by
  rw [List.filter_eq_nil_iff]
  intro l hl
  obtain ⟨x, _, hx⟩ := List.mem_flatMap.mp hl
  rcases Comparison.category_of_mem_labels hx with h | h <;> simp [h, hitem.symm, hmark.symm]

theorem length_filter_labels :
    ((cs.flatMap Comparison.labels).filter fun l => l.1 = .placeholderInject).length =
      cs.countP fun c => c.value.isMark := by
  induction cs with
  | nil => rfl
  | cons c cs ih =>
      rw [List.flatMap_cons, List.filter_append, List.length_append, ih, List.countP_cons,
        Nat.add_comm]
      cases hv : c.value <;> simp [Comparison.labels, Operand.labels, Operand.isMark, hv]

end Labels

/-- Nothing is written over the parts of a node that has just been read. -/
theorem map_sides_nodes {root : Node} (h : root.Everywhere Node.Formed) (c : Category) :
    (root.nodes c).map Node.sides = (root.nodes c).map Node.spelledSides := by
  refine List.map_congr_left fun m hm => ?_
  rw [Node.nodes_eq_filter] at hm
  have hm := List.mem_of_mem_filter hm
  refine List.map_congr_left fun k hk => ?_
  exact text_of_mem_preorder (h.of_mem hm)
    (Node.mem_preorder_iff.mpr (Or.inr ⟨k, List.mem_of_mem_filter hk, Node.self_mem_preorder k⟩))

/-- A template that selects rows is understood, whatever its names and strings, the lengths
of its lists, the case of its keywords and its spacing. Two levels of nesting are enough, the
fields and the table are told as such in their order, each comparison has the sides that are
written, and there is a placeholder for each bind marker among them. -/
theorem parse_selectTemplate (q : SelectTemplate) {depth : Nat} (hdepth : 2 ≤ depth) :
    ∃ root, parse depth q.text = .ok root ∧
      (root.nodes .fieldName).map Node.text = q.fields.map Identifier.text ∧
      (root.nodes .tableName).map Node.text = [q.table.text] ∧
      (root.nodes .conditionItem).map Node.sides = q.comparisons.map Comparison.sides ∧
      root.count .placeholderInject = q.comparisons.countP fun c => c.value.isMark := by
  obtain ⟨room, rfl⟩ := Nat.exists_eq_add_of_le' hdepth
  obtain ⟨root, hparse, hnoted, hsides⟩ := q.exists_tree room
  have hformed := formed_of_parse hparse
  have hnodes : ∀ c, isSelectPart c = true → (root.nodes c).map Node.spelling =
      (q.labels.filter fun l => l.1 = c).map Prod.snd :=
    fun c hc => hnoted ▸ Node.map_spelling_nodes hc root
  refine ⟨root, hparse, ?_, ?_, ?_, ?_⟩
  · rw [map_text_nodes hformed, hnodes _ rfl]
    simp [SelectTemplate.labels, filter_labels, List.filter_map, Function.comp_def]
  · rw [map_text_nodes hformed, hnodes _ rfl]
    simp [SelectTemplate.labels, filter_labels, List.filter_map, Function.comp_def]
  · rw [map_sides_nodes hformed, ← hsides]
    exact Node.map_nodes _ _ root
  · rw [Node.count, ← List.length_map (f := Node.spelling), hnodes _ rfl]
    simp [SelectTemplate.labels, length_filter_labels, List.filter_map, Function.comp_def]

theorem Gap.layout_nil : ∀ x ∈ ([] : Text), Text.isLayout x = true :=
  nofun

/-- Nothing between two parts. -/
def Gap.empty : Gap where
  text := []
  layout := Gap.layout_nil

theorem Break.layout_space : ∀ x ∈ [' '], Text.isLayout x = true :=
  List.all_eq_true.mp rfl

theorem Break.space_ne_nil : [' '] ≠ [] :=
  List.cons_ne_nil ' ' []

/-- One space between two parts. -/
def Break.blank : Break where
  text := [' ']
  layout := Break.layout_space
  nonempty := Break.space_ne_nil

/-- A template whose names are keywords or hexadecimal, with a string that looks like a part
of a query. -/
def keywordNamedSelect : SelectTemplate where
  beginning := .empty
  select := ⟨"select".toList, by decide⟩
  afterSelect := ⟨⟨"\r\n".toList, List.all_eq_true.mp rfl⟩, List.cons_ne_nil _ _⟩
  field := ⟨"abc1".toList, by decide, List.all_eq_true.mp rfl, by decide⟩
  field_ne_distinct := by decide
  field_ne_json := by decide
  moreFields := [⟨Break.blank.toGap, .empty,
    ⟨"Distinct".toList, by decide, List.all_eq_true.mp rfl, by decide⟩⟩]
  beforeFrom := .blank
  fromWord := ⟨"FROM".toList, by decide⟩
  afterFrom := .blank
  table := .plain ⟨"Key".toList, by decide, List.all_eq_true.mp rfl, by decide⟩
  beforeWhere := .blank
  whereWord := ⟨"Where".toList, by decide⟩
  afterWhere := .blank
  comparison := ⟨⟨"face".toList, by decide, List.all_eq_true.mp rfl, by decide⟩, .empty,
    .atLeast, .empty, .string "it's ? OR [".toList⟩
  moreComparisons := [
    ⟨⟨⟨"\t".toList, List.all_eq_true.mp rfl⟩, List.cons_ne_nil _ _⟩,
      .inl ⟨"AND".toList, by decide⟩, .blank,
      ⟨⟨"TTL".toList, by decide, List.all_eq_true.mp rfl, by decide⟩, .empty, .less,
        Break.blank.toGap,
        .number "007".toList (List.cons_ne_nil _ _) (List.all_eq_true.mp rfl)⟩⟩,
    ⟨.blank, .inr ⟨"or".toList, by decide⟩, .blank,
      ⟨⟨"e5".toList, by decide, List.all_eq_true.mp rfl, by decide⟩, .empty, .equal,
        .empty, .mark⟩⟩]
  ending := ⟨.empty, some .empty⟩

theorem parse_selectTemplate_keywordNamed :
    ∃ root, parse 2 ("select\r\nabc1 ,Distinct FROM Key Where face>='it''s ? OR ['" ++
        "\tAND TTL< 007 or e5=?;").toList = .ok root ∧
      (root.nodes .fieldName).map Node.text = ["abc1".toList, "Distinct".toList] ∧
      (root.nodes .tableName).map Node.text = ["Key".toList] ∧
      (root.nodes .conditionItem).map Node.sides =
        [["face".toList, ">=".toList, "'it''s ? OR ['".toList],
          ["TTL".toList, "<".toList, "007".toList], ["e5".toList, "=".toList, "?".toList]] ∧
      root.count .placeholderInject = 1 :=
  parse_selectTemplate keywordNamedSelect (by decide : 2 ≤ 2)

end QueryTree
