import QueryTree.Proofs.Template.Words

/-!
# Templates that insert a row

A template that inserts a row names a table, some of its columns and a bind marker for each
value. However it is spelled and spaced, and however long its lists are, it is read as two
nested commands, and its names are told apart as table and columns.
-/

namespace QueryTree

open Recognizer Grammar

/-- A query of the form `INSERT INTO table (column, ...) VALUES (?, ...)`. -/
structure InsertTemplate where
  insert : Spelled .INSERT
  afterInsert : Break
  into : Spelled .INTO
  afterInto : Break
  table : Reference
  beforeColumns : Gap
  columns : Parenthesized Identifier
  beforeValues : Gap
  values : Spelled .VALUES
  beforeMarks : Gap
  /-- The bind markers, of which only the spacing can differ. -/
  marks : Parenthesized Unit
  ending : Gap

namespace InsertTemplate

variable (q : InsertTemplate)

/-- What follows `VALUES`. -/
def marksText : Text :=
  q.beforeMarks.text ++ (q.marks.text (fun _ => ['?']) ++ q.ending.text)

/-- What follows the list of columns. -/
def valuesText : Text :=
  q.beforeValues.text ++ (q.values.text ++ q.marksText)

/-- What follows the table. -/
def columnsText : Text :=
  q.beforeColumns.text ++ (q.columns.text Identifier.text ++ q.valuesText)

/-- What follows `INTO`. -/
def tableText : Text :=
  q.afterInto.text ++ (q.table.text ++ q.columnsText)

/-- How a template is written. -/
def text : Text :=
  q.insert.text ++ (q.afterInsert.text ++ (q.into.text ++ q.tableText))

end InsertTemplate

/-- The categories by which a template is told. -/
def isTemplatePart : Category → Bool
  | .tableName | .fieldName | .placeholderInject => true
  | _ => false

theorem skipsWords_isTemplatePart : Node.SkipsWords isTemplatePart :=
  ⟨rfl, rfl, rfl, rfl, rfl⟩

theorem skipsNames_isTemplatePart : Node.SkipsNames isTemplatePart :=
  ⟨rfl, rfl, rfl⟩

/-- The context in which names refer to nothing in particular. -/
def idle : NameContext :=
  ⟨false, false, false, .none⟩

/-- The context in the list of columns, before an entry if `column` is true and after it
otherwise. -/
def inColumns (column : Bool) : NameContext :=
  ⟨false, false, column, .inside 0⟩

section Parts

variable {room : Nat} {rest : Text}

/-- In the list after a table name each identifier is the name of a column. -/
theorem readsEntry_column (room : Nat) :
    ReadsEntry isTemplatePart room Identifier.text (fun w => [(.fieldName, w.text)])
      (inColumns true) (inColumns false) where
  head w rest := (Reference.plain w).isLayout_head? rest
  item w rest h := by
    refine ⟨_, (Reference.plain w).commandItem_append room _ h, ?_, rfl⟩
    exact Reference.noted_node skipsNames_isTemplatePart rfl (.plain w) rest

/-- Elsewhere a bind marker changes nothing. -/
theorem readsEntry_mark (room : Nat) :
    ReadsEntry isTemplatePart room (fun _ : Unit => ['?'])
      (fun _ => [(.placeholderInject, ['?'])]) idle idle where
  head _ rest := by
    rintro x ⟨⟩
    rfl
  item _ rest _ := ⟨_, commandItem_mark room _ rest, rfl, rfl⟩

end Parts

theorem isSolitary_insert : Keyword.IsSolitary .INSERT :=
  ⟨by decide, rfl, fun l => by cases l <;> rfl⟩

theorem isSolitary_into : Keyword.IsSolitary .INTO :=
  ⟨by decide, rfl, fun l => by cases l <;> rfl⟩

theorem isSolitary_values : Keyword.IsSolitary .VALUES :=
  ⟨by decide, rfl, fun l => by cases l <;> rfl⟩

namespace InsertTemplate

variable (q : InsertTemplate)

theorem closesName_marksText : ClosesName q.marksText :=
  q.beforeMarks.closesName rfl _

theorem closesName_columnsText : ClosesName q.columnsText :=
  q.beforeColumns.closesName rfl _

theorem leadingWord_values :
    leadingWord (q.values.text ++ q.marksText) = .found (q.values.node q.marksText) q.marksText :=
  q.values.leadingWord_append isSolitary_values.ne_where isSolitary_values.clause
    q.closesName_marksText.ends

/-- The command that `VALUES` opens, with its bind markers. -/
theorem command_values (room : Nat) :
    ∃ n, command (room + 1) (q.values.text ++ q.marksText) = .found n q.ending.text ∧
      n.noted isTemplatePart = q.marks.entries.map fun _ => (.placeholderInject, ['?']) := by
  have hcloses := q.closesName_marksText
  have hwords := q.values.readsWords_single isSolitary_values skipsWords_isTemplatePart
    hcloses.ends (leadingWord_eq_absent (q.beforeMarks.endsWord_dropWhile rfl _))
  have hopen : (NameContext.ofKeywords [.VALUES]).afterSymbol ['('] = idle := rfl
  have hitems := (readsEntry_mark room).items_list skipsWords_isTemplatePart hopen rfl rfl q.marks
    q.beforeMarks q.ending.text
  have hnext : Recognizer.optional (Grammar.spaced (command room)) q.ending.text =
      .found [] q.ending.text :=
    optional_of_absent (q.ending.spaced_eq_absent (command_eq_absent room rfl))
  obtain ⟨n, hn, hnoted⟩ := command_of_items skipsWords_isTemplatePart hwords hitems
    (q.ending.spaced_eq_absent (commandItem_nil _ _)) hnext
  refine ⟨n, hn, hnoted.trans ?_⟩
  rw [List.flatMap_nil, List.append_nil, List.map_eq_flatMap]

/-- The items of the command that `INSERT INTO` opens: the table and its columns. -/
theorem items_tableText (room : Nat) :
    Items isTemplatePart room (NameContext.ofKeywords [.INSERT, .INTO]) q.tableText
      ((.tableName, q.table.text) :: q.columns.entries.map fun w => (.fieldName, w.text))
      idle q.valuesText := by
  have htable := Items.item skipsWords_isTemplatePart q.afterInto.toGap
    (q.table.isLayout_head? q.columnsText)
    (q.table.commandItem_append room (NameContext.ofKeywords [.INSERT, .INTO])
      q.closesName_columnsText)
  have hopen : ((NameContext.ofKeywords [.INSERT, .INTO]).after
      (q.table.node .tableName q.columnsText)).afterSymbol ['('] = inColumns true := by
    cases q.table <;> rfl
  have hcolumns := (readsEntry_column room).items_list skipsWords_isTemplatePart hopen rfl rfl
    q.columns q.beforeColumns q.valuesText
  have hitems := htable.trans hcolumns
  rw [Reference.noted_node skipsNames_isTemplatePart rfl] at hitems
  rw [List.map_eq_flatMap]
  exact hitems

/-- The command that `INSERT INTO` opens, with the table, the columns and the command that
continues it. -/
theorem command_text (room : Nat) :
    ∃ n, command (room + 2) q.text = .found n q.ending.text ∧
      n.noted isTemplatePart = (.tableName, q.table.text) ::
        ((q.columns.entries.map fun w => (.fieldName, w.text)) ++
          q.marks.entries.map fun _ => (.placeholderInject, ['?'])) := by
  have htable : leadingWord (q.tableText.dropWhile Text.isLayout) = .absent := by
    rw [tableText, q.afterInto.dropWhile_append (q.table.isLayout_head? _)]
    exact q.table.leadingWord_append q.closesName_columnsText
  have hwords := q.insert.readsWords_pair isSolitary_insert q.afterInsert q.into isSolitary_into
    skipsWords_isTemplatePart (q.afterInto.endsWord _) htable
  have hend : Grammar.spaced (commandItem (room + 1) idle) q.valuesText = .absent :=
    q.beforeValues.spaced_append_absent (q.values.isLayout_head? _)
      (commandItem_eq_absent rfl q.leadingWord_values)
  obtain ⟨m, hm, hmarks⟩ := q.command_values room
  have hnext : Recognizer.optional (Grammar.spaced (command (room + 1))) q.valuesText =
      .found (gapNodes q.valuesText ++ [m]) q.ending.text :=
    optional_of_found (q.beforeValues.spaced_append_found (q.values.isLayout_head? _) hm)
  obtain ⟨n, hn, hnoted⟩ := command_of_items skipsWords_isTemplatePart hwords
    (q.items_tableText (room + 1)) hend hnext
  refine ⟨n, hn, hnoted.trans ?_⟩
  rw [List.flatMap_append, Node.flatMap_noted_gapNodes skipsWords_isTemplatePart, List.nil_append,
    List.flatMap_singleton, hmarks]
  rfl

/-- The tree of a template, told by its table, its columns and its bind markers. -/
theorem exists_tree (room : Nat) :
    ∃ root, parse (room + 2) q.text = .ok root ∧
      root.noted isTemplatePart = (.tableName, q.table.text) ::
        ((q.columns.entries.map fun w => (.fieldName, w.text)) ++
          q.marks.entries.map fun _ => (.placeholderInject, ['?'])) := by
  obtain ⟨n, hn, hnoted⟩ := q.command_text room
  have hfront : q.text.dropWhile Text.isLayout = q.text :=
    Gap.dropWhile_append ⟨[], nofun⟩ (q.insert.isLayout_head? _)
  rw [← hfront] at hn
  refine ⟨_, parse_of_command q.ending hn, ?_⟩
  rw [Node.noted_branch rfl, List.flatMap_append, List.flatMap_append,
    Node.flatMap_noted_gapNodes skipsWords_isTemplatePart,
    Node.flatMap_noted_gapNodes skipsWords_isTemplatePart, List.flatMap_singleton, hnoted]
  exact List.append_nil _

end InsertTemplate

/-- A template that inserts a row is understood, whatever its names and the lengths of its
lists, the case of its keywords and its spacing. Two levels of nesting are enough, the table
and the columns are told as such in their order, and there is a placeholder for each bind
marker. -/
theorem parse_insertTemplate (q : InsertTemplate) {depth : Nat} (hdepth : 2 ≤ depth) :
    ∃ root, parse depth q.text = .ok root ∧
      (root.nodes .tableName).map Node.text = [q.table.text] ∧
      (root.nodes .fieldName).map Node.text = q.columns.entries.map Identifier.text ∧
      root.count .placeholderInject = q.marks.entries.length := by
  obtain ⟨room, rfl⟩ := Nat.exists_eq_add_of_le' hdepth
  obtain ⟨root, hparse, hnoted⟩ := q.exists_tree room
  have hformed := formed_of_parse hparse
  have hnodes : ∀ c, isTemplatePart c = true → (root.nodes c).map Node.spelling =
      (((.tableName, q.table.text) :: ((q.columns.entries.map fun w => (.fieldName, w.text)) ++
        q.marks.entries.map fun _ => (.placeholderInject, ['?']))).filter
          fun l : Label => l.1 = c).map Prod.snd :=
    fun c hc => hnoted ▸ Node.map_spelling_nodes hc root
  refine ⟨root, hparse, ?_, ?_, ?_⟩
  · rw [map_text_nodes hformed, hnodes _ rfl]
    simp [List.filter_map, Function.comp_def]
  · rw [map_text_nodes hformed, hnodes _ rfl]
    simp [List.filter_map, Function.comp_def]
  · rw [Node.count, ← List.length_map (f := Node.spelling), hnodes _ rfl]
    simp [List.filter_map, Function.comp_def]

/-- A template whose names are keywords as well. -/
def keywordNamedTemplate : InsertTemplate where
  insert := ⟨"insert".toList, by decide⟩
  afterInsert := ⟨⟨" ".toList, List.all_eq_true.mp rfl⟩, List.cons_ne_nil _ _⟩
  into := ⟨"Into".toList, by decide⟩
  afterInto := ⟨⟨"\n".toList, List.all_eq_true.mp rfl⟩, List.cons_ne_nil _ _⟩
  table := .qualified ⟨"ks".toList, by decide, List.all_eq_true.mp rfl, by decide⟩
    ⟨"key".toList, by decide, List.all_eq_true.mp rfl, by decide⟩
  beforeColumns := ⟨[], nofun⟩
  columns := ⟨⟨⟨[], nofun⟩, ⟨"ttl".toList, by decide, List.all_eq_true.mp rfl, by decide⟩,
      ⟨[], nofun⟩⟩,
    [⟨⟨" ".toList, List.all_eq_true.mp rfl⟩,
      ⟨"Per".toList, by decide, List.all_eq_true.mp rfl, by decide⟩, ⟨[], nofun⟩⟩]⟩
  beforeValues := ⟨[], nofun⟩
  values := ⟨"VALUES".toList, by decide⟩
  beforeMarks := ⟨[], nofun⟩
  marks := ⟨⟨⟨[], nofun⟩, (), ⟨" ".toList, List.all_eq_true.mp rfl⟩⟩,
    [⟨⟨[], nofun⟩, (), ⟨[], nofun⟩⟩]⟩
  ending := ⟨[], nofun⟩

theorem parse_insertTemplate_keywordNamed :
    ∃ root, parse 2 "insert Into\nks.key(ttl, Per)VALUES(? ,?)".toList = .ok root ∧
      (root.nodes .tableName).map Node.text = ["ks.key".toList] ∧
      (root.nodes .fieldName).map Node.text = ["ttl".toList, "Per".toList] ∧
      root.count .placeholderInject = 2 :=
  parse_insertTemplate keywordNamedTemplate (by decide : 2 ≤ 2)

end QueryTree
