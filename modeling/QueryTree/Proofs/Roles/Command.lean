import QueryTree.Proofs.Roles.Items

/-!
# The roles of the names in a query

In the tree of a query each name has the role that the keywords and the items before it give
to it, command by command.
-/

namespace QueryTree

open Recognizer Grammar Roles

namespace Node

/-- The items of a command: its parts behind the keywords, without whitespace and without the
command that continues it. -/
def items (n : Node) : List Node :=
  n.children.tail.filter isItem

/-- The words that open a command. -/
def openingWords (n : Node) : List Text :=
  match n.children with
  | [] => []
  | sequence :: _ => (sequence.children.filter fun k => k.category = .reservedWord).map spelling

/-- Whether the names of a command have the roles that their positions give to them. -/
structure Classified (n : Node) : Prop where
  /-- A name refers to a table or to a column where its position says so. -/
  name : ∀ before x after, n.items = before ++ x :: after → x.IsNamed →
    (x.category = .tableName ↔ NamesTable n.openingWords (before.map label)) ∧
    (x.category = .fieldName ↔ ¬NamesTable n.openingWords (before.map label) ∧
      NamesColumn n.openingWords (before.map label)) ∧
    (x.category = .selectorItem ↔ ¬NamesTable n.openingWords (before.map label) ∧
      ¬NamesColumn n.openingWords (before.map label))
  /-- Placeholders and literals have no role of their own. -/
  value : ∀ x ∈ n.items, x.IsValued → x.category = .selectorItem
  /-- Nothing else has a role. -/
  built : ∀ x ∈ n.items, IsRole x.category → x.IsNamed ∨ x.IsValued
  /-- A command has at most one table name. -/
  table : (n.children.filter fun k => k.category = .tableName).length ≤ 1

variable {n : Node} {ns before after : List Node} {x : Node}

/-- The parts of a production that satisfy a condition are the same before they are linked. -/
theorem exists_split_of_chainFrom {i : Nat}
    (h : (chainFrom i ns).filter isItem = before ++ x :: after) :
    ∃ before' x' after', ns.filter isItem = before' ++ x' :: after' ∧
      before'.map label = before.map label ∧ ∃ p q, x = x'.linked p q := by
  induction ns generalizing i before with
  | nil => simp [chainFrom] at h
  | cons m ns ih =>
      obtain ⟨p, q, hlinked⟩ : ∃ p q,
          chainFrom i (m :: ns) = m.linked p q :: chainFrom (i + 1) ns := ⟨_, _, rfl⟩
      rw [hlinked] at h
      by_cases hm : m.isItem = true
      · have hm' : (m.linked p q).isItem = true := hm
        rw [List.filter_cons_of_pos hm'] at h
        rw [List.filter_cons_of_pos hm]
        cases before with
        | nil =>
            obtain ⟨rfl, _⟩ := List.cons.inj h
            exact ⟨[], m, ns.filter isItem, rfl, rfl, p, q, rfl⟩
        | cons y before =>
            obtain ⟨rfl, hrest⟩ := List.cons.inj h
            obtain ⟨before', x', after', hsplit, hlabels, hx⟩ := ih hrest
            refine ⟨m :: before', x', after', by rw [hsplit, List.cons_append], ?_, hx⟩
            rw [List.map_cons, List.map_cons, hlabels]
            rfl
      · have hm' : ¬(m.linked p q).isItem = true := hm
        rw [List.filter_cons_of_neg hm'] at h
        rw [List.filter_cons_of_neg hm]
        exact ih h

/-- A name that is read in a context has the role of its position. -/
theorem roles_of_tracks {words : List Text} {labels : List Label} {context : NameContext}
    (htracks : Tracks words labels context) :
    (context.role = .tableName ↔ NamesTable words labels) ∧
      (context.role = .fieldName ↔ ¬NamesTable words labels ∧ NamesColumn words labels) ∧
      (context.role = .selectorItem ↔ ¬NamesTable words labels ∧ ¬NamesColumn words labels) := by
  rw [← htracks.table, ← htracks.column, NameContext.role]
  cases context.table <;> cases context.column <;> simp

/-- The table names among the parts of a command are those among its items. -/
theorem filter_tableName_children (hhead : ∀ k ∈ n.children.head?, k.category ≠ .tableName) :
    (n.children.filter fun k => k.category = .tableName) =
      n.items.filter fun k => k.category = .tableName := by
  cases hchildren : n.children with
  | nil => simp [items, hchildren]
  | cons first parts =>
      have hne : first.category ≠ .tableName :=
        hhead first (by rw [hchildren, List.head?_cons, Option.mem_some_iff])
      rw [items, hchildren, List.tail_cons, List.filter_cons_of_neg (by simpa using hne),
        List.filter_filter]
      refine List.filter_congr fun k _ => ?_
      by_cases hk : k.category = .tableName
      · simp [isItem, hk]
      · simp [hk]

/-- If only the first of some nodes may name a table, at most one of them does. -/
theorem length_filter_tableName_le_one
    (h : ∀ before x after, ns = before ++ x :: after → x.category = .tableName → before = []) :
    (ns.filter fun k => k.category = .tableName).length ≤ 1 := by
  cases ns with
  | nil => exact Nat.zero_le 1
  | cons x ns =>
      have hnone : ns.filter (fun k => k.category = .tableName) = [] := by
        refine List.filter_eq_nil_iff.mpr fun y hy hcategory => ?_
        obtain ⟨before, after, rfl⟩ := List.append_of_mem hy
        exact List.cons_ne_nil x before (h (x :: before) y after rfl (of_decide_eq_true hcategory))
      rw [List.filter_cons, hnone]
      split
      · exact Nat.le_refl 1
      · exact Nat.zero_le 1

/-- A command is classified if each of its items is read in a context that tracks the items
before it. -/
theorem Classified.of_tracks (hhead : ∀ k ∈ n.children.head?, k.category ≠ .tableName)
    (h : ∀ before x after, n.items = before ++ x :: after → ∃ context,
      Tracks n.openingWords (before.map label) context ∧ ReadAs context.role x) :
    n.Classified where
  name before x after hitems hnamed := by
    obtain ⟨context, htracks, hread⟩ := h before x after hitems
    cases hread with
    | name hc _ _ =>
        rw [hc]
        exact roles_of_tracks htracks
    | value _ hunnamed _ => exact absurd hnamed hunnamed
    | other _ hunnamed _ => exact absurd hnamed hunnamed
  value x hx hvalued := by
    obtain ⟨before, after, hitems⟩ := List.append_of_mem hx
    obtain ⟨context, _, hread⟩ := h before x after hitems
    cases hread with
    | name _ _ hunvalued => exact absurd hvalued hunvalued
    | value hc _ _ => exact hc
    | other _ _ hunvalued => exact absurd hvalued hunvalued
  built x hx hrole := by
    obtain ⟨before, after, hitems⟩ := List.append_of_mem hx
    obtain ⟨context, _, hread⟩ := h before x after hitems
    cases hread with
    | name _ hnamed _ => exact Or.inl hnamed
    | value _ _ hvalued => exact Or.inr hvalued
    | other hc _ _ =>
        rcases hrole with hr | hr | hr <;> rw [hr] at hc <;> exact absurd hc (by decide)
  table := by
    -- A table is named by the first item or by none.
    have hfirst : ∀ before x after, n.items = before ++ x :: after → x.category = .tableName →
        before = [] := by
      intro before x after hitems hx
      obtain ⟨context, htracks, hread⟩ := h before x after hitems
      exact List.map_eq_nil_iff.mp (htracks.table.mp (hread.table hx)).1
    rw [filter_tableName_children hhead]
    exact length_filter_tableName_le_one hfirst

/-- The links of a command do not matter. -/
theorem Classified.linked (h : n.Classified) (p q : Option Nat) : (n.linked p q).Classified :=
  ⟨h.name, h.value, h.built, h.table⟩

/-- In a run of keywords, a condition, an item or a name there is no command. -/
theorem Everywhere.ne_command (h : n.Everywhere Formed) (hstatement : n.category ≠ .statement)
    (hcommand : n.category ≠ .command) : n.Everywhere fun m => m.category ≠ .command := by
  have hparts : ∀ c : Category, c ≠ .statement ∧ c ≠ .command →
      ∀ d ∈ c.partCategories, d ≠ .statement ∧ d ≠ .command := by
    intro c
    cases c <;> decide
  exact (h.of_category (P := fun c => c ≠ .statement ∧ c ≠ .command) ⟨hstatement, hcommand⟩
    hparts).mono fun m hm => hm.2

end Node

namespace Grammar

variable {room : Nat} {t rest : Text} {n : Node}

/-- The parts of a command. -/
theorem command_eq_found (h : command (room + 1) t = .found n rest) :
    ∃ sequence middle ns middle' nested, reservedWordSequence t = .found sequence middle ∧
      commandItems room (keywordsOf sequence) middle = .found ns middle' ∧
      Recognizer.optional (Grammar.spaced (command room)) middle' = .found nested rest ∧
      n = Node.branch .command (Node.chain (sequence :: (ns ++ nested))) rest := by
  rw [command_succ] at h
  obtain ⟨parts, hparts, rfl⟩ := node_eq_found.mp h
  obtain ⟨sequence, middle, more, hsequence, hmore, rfl⟩ := andThen_eq_found.mp hparts
  obtain ⟨ns, middle', nested, hns, hnested, rfl⟩ := seq_eq_found.mp hmore
  exact ⟨sequence, middle, ns, middle', nested, hsequence, hns, hnested, rfl⟩

/-- The command that continues another one is none of its items. -/
theorem filter_isItem_nested {nested : List Node}
    (h : Recognizer.optional (Grammar.spaced (command room)) t = .found nested rest) :
    nested.filter Node.isItem = [] := by
  rcases orElse_eq_found.mp h with h | ⟨_, h⟩
  · rw [spaced_eq] at h
    obtain ⟨m, hm, rfl⟩ := Reading.map_eq_found.mp h
    have hcategory : m.category = .command :=
      Phrase.label_mem_part.mp (command_finds room _ m rest hm).labels
    rw [List.filter_append, filter_isItem_gapNodes, List.nil_append, List.filter_eq_nil_iff]
    simp [Node.isItem, hcategory]
  · obtain ⟨rfl, _⟩ := Reading.found.inj h
    rfl

/-- The words of a sequence spell its keywords. -/
theorem keywordsOf_eq (sequence : Node) :
    keywordsOf sequence = ((sequence.children.filter fun k => k.category = .reservedWord).map
      Node.spelling).filterMap Keyword.ofText? := by
  rw [keywordsOf, List.filterMap_map]
  rfl

theorem isReservedWord_of_sequence {sequence : Node}
    (h : reservedWordSequence t = .found sequence rest) {w : Text}
    (hw : w ∈ (sequence.children.filter fun k => k.category = .reservedWord).map Node.spelling) :
    isReservedWord w = true := by
  obtain ⟨k, hk, rfl⟩ := List.mem_map.mp hw
  obtain ⟨hk, hcategory⟩ := List.mem_filter.mp hk
  have hformed := (reservedWordSequence_finds t sequence rest h).formed _ List.mem_cons_self
  have hspells := (hformed.child hk).self.spells
  rw [of_decide_eq_true hcategory] at hspells
  exact hspells.2

/-- The names of a command that is read have the roles of their positions. -/
theorem command_classified (h : command (room + 1) t = .found n rest) : n.Classified := by
  obtain ⟨sequence, middle, ns, middle', nested, hsequence, hns, hnested, rfl⟩ :=
    command_eq_found h
  have hcategory : sequence.category = .reservedWordSequence :=
    Phrase.label_mem_part.mp (reservedWordSequence_finds t sequence middle hsequence).labels
  apply Node.Classified.of_tracks
  · intro k hk
    obtain rfl := Option.some.inj hk
    exact fun hname => nomatch hcategory.symm.trans hname
  · intro before x after hitems
    obtain ⟨before', x', after', hsplit, hlabels, p, q, rfl⟩ :=
      Node.exists_split_of_chainFrom hitems
    rw [List.filter_append, filter_isItem_nested hnested, List.append_nil] at hsplit
    have htracks := tracks_ofKeywords fun w hw => isReservedWord_of_sequence hsequence hw
    rw [← keywordsOf_eq] at htracks
    obtain ⟨context, htracks, hread⟩ := tracks_of_repeatUpTo htracks hns hsplit
    rw [List.nil_append, hlabels] at htracks
    exact ⟨context, htracks, hread.linked p q⟩

section Everywhere

/-- Whether the names of all commands in a tree have the roles of their positions. -/
def AllClassified (n : Node) : Prop :=
  n.Everywhere fun m => m.category = .command → m.Classified

theorem allClassified_of_formed (h : n.Everywhere Node.Formed)
    (hstatement : n.category ≠ .statement) (hcommand : n.category ≠ .command) :
    AllClassified n :=
  (h.ne_command hstatement hcommand).mono fun _ hm hc => absurd hc hm

theorem findsOnly_of_finds {r : Recognizer Node} {c : Category}
    (hr : r.Finds (Phrase.part c)) (hstatement : c ≠ .statement) (hcommand : c ≠ .command) :
    r.FindsOnly AllClassified := by
  intro t n rest h
  have hn := hr t n rest h
  have hcategory : n.category = c := Phrase.label_mem_part.mp hn.labels
  exact allClassified_of_formed (hn.formed n List.mem_cons_self) (hcategory ▸ hstatement)
    (hcategory ▸ hcommand)

theorem whitespace_findsOnly : whitespace.FindsOnly AllClassified :=
  findsOnly_of_finds whitespace_finds nofun nofun

theorem spaced_yieldsOnly {r : Recognizer Node} (h : r.FindsOnly AllClassified) :
    (Grammar.spaced r).YieldsOnly AllClassified :=
  whitespace_findsOnly.one.optional.seq h.one

theorem commandItem_findsOnly (room : Nat) (context : NameContext) :
    (commandItem room context).FindsOnly AllClassified := by
  intro t n rest h
  obtain ⟨_, hcommand, hstatement⟩ := (readAs_of_commandItem h).category_ne
  exact allClassified_of_formed
    ((commandItem_finds room context t n rest h).formed n List.mem_cons_self) hstatement hcommand

theorem command_findsOnly (room : Nat) : (command room).FindsOnly AllClassified := by
  induction room with
  | zero => exact refused_findsOnly
  | succ room ih =>
      have hitems : ∀ words, (commandItems room words).YieldsOnly AllClassified := fun _ =>
        YieldsOnly.repeated fun context => spaced_yieldsOnly (commandItem_findsOnly room context)
      have hparts := (findsOnly_of_finds reservedWordSequence_finds nofun nofun).andThen
        fun sequence => (hitems (keywordsOf sequence)).seq (spaced_yieldsOnly ih).optional
      intro t n rest h
      have hself := command_classified h
      rw [command_succ] at h
      obtain ⟨parts, hfound, rfl⟩ := node_eq_found.mp h
      refine Node.everywhere_iff.mpr ⟨fun _ => hself, fun k hk => ?_⟩
      obtain ⟨m, hm, p, q, rfl⟩ := Node.mem_chain hk
      exact (hparts _ _ _ hfound m hm).linked p q fun hclassified hc =>
        (hclassified hc).linked p q

theorem statementParts_yieldsOnly (depth : Nat) :
    (statementParts depth).YieldsOnly AllClassified :=
  (((whitespace_findsOnly.one.optional.seq ((command_findsOnly depth).orFault _).one).seq
      ((spaced_yieldsOnly (findsOnly_of_finds condition_finds nofun nofun)).seq
        (spaced_yieldsOnly (command_findsOnly depth)).optional).optional).seq
      (spaced_yieldsOnly (findsOnly_of_finds terminator_finds nofun nofun)).optional).seq
    whitespace_findsOnly.one.optional

end Everywhere

end Grammar

/-- Names have the roles of their positions. Of the items of a command in the tree of a query,
those that are built from a name are table names, field names or plain selector items by the
keywords that open the command and by the items before them. The first one names a table if
one of the keywords calls for a table and the last one allows it there. Otherwise a name
refers to a column in two cases. The keywords call for columns, and the name opens the command
or follows a comma outside of the list after the table name. Or the name is in this list with
no further parenthesis open, and follows its opening parenthesis or a comma. Placeholders and
literals are plain selector items, and at most one part of the command is a table name. -/
theorem names_have_positional_roles {depth : Nat} {q : Text} {root : Node}
    (h : parse depth q = .ok root) :
    ∀ n ∈ root.preorder, n.category = .command → n.Classified := by
  obtain ⟨-, parts, hparts, rfl⟩ := statement_eq_found.mp (parse_eq_ok.mp h)
  exact Node.everywhere_iff.mpr ⟨nofun, statementParts_yieldsOnly depth q parts [] hparts⟩

/-- In the list after the table name a column in further parentheses is a plain item. -/
theorem names_have_positional_roles_list :
    ∃ root n, parse 2 "INSERT INTO t (a, (b), 7)".toList = .ok root ∧
      n ∈ root.preorder ∧ n.category = .command ∧ n.Classified ∧
      n.items.map Node.label =
        [(.tableName, ['t']), opening, (.fieldName, ['a']), comma, opening,
          (.selectorItem, ['b']), closing, comma, (.selectorItem, ['7']), closing] := by
  obtain ⟨root, hroot⟩ := exists_tree_of_isOk 2 "INSERT INTO t (a, (b), 7)".toList
    (by decide +kernel)
  have hmap : (parse 2 "INSERT INTO t (a, (b), 7)".toList).map (fun root =>
      (root.preorder.filter fun n => n.category = .command).map fun n =>
        n.items.map Node.label) =
      .ok [[(.tableName, ['t']), opening, (.fieldName, ['a']), comma, opening,
        (.selectorItem, ['b']), closing, comma, (.selectorItem, ['7']), closing]] := by
    decide +kernel
  rw [hroot] at hmap
  obtain ⟨n, hcommands, hitems⟩ := List.map_eq_singleton_iff.mp (Except.ok.inj hmap)
  obtain ⟨hn, hcommand⟩ := List.mem_filter.mp (hcommands ▸ List.mem_singleton_self n)
  have hcommand : n.category = .command := of_decide_eq_true hcommand
  exact ⟨root, n, hroot, hn, hcommand, names_have_positional_roles hroot n hn hcommand, hitems⟩

end QueryTree
