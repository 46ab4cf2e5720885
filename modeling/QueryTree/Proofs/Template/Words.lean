import QueryTree.Proofs.LetterCase.Text
import QueryTree.Proofs.Template.Entries
import QueryTree.Proofs.Tree.Tiling

/-!
# Keywords of query templates

A template has its keywords in any case. A clause word opens or continues a run of
keywords wherever it stands, and a keyword that pairs with no other ends the run in front
of anything else. From its keywords and its items a command is put together.
-/

namespace QueryTree

open Recognizer Grammar

/-- A keyword in any case. -/
structure Spelled (k : Keyword) where
  text : Text
  spells : Text.upper text = k.spelling

/-- Whitespace that is not empty. -/
structure Break extends Gap where
  nonempty : text ≠ []

/-- Whether a keyword leads a run of keywords wherever it stands and pairs with no other. -/
structure Keyword.IsSolitary (k : Keyword) : Prop where
  ne_where : k ≠ .WHERE
  clause : k.isClause = true
  unpaired : ∀ l, k.pairs l = false

section Words

variable {k : Keyword} {t rest : Text}

theorem Keyword.spelling_isWord (k : Keyword) :
    k.spelling ≠ [] ∧ k.spelling.all Char.isAlphanum = true := by
  cases k <;> decide

namespace Spelled

theorem ofText? (w : Spelled k) : Keyword.ofText? w.text = some k :=
  (Keyword.ofText?_congr (w.spells.trans k.upper_spelling.symm)).trans k.ofText?_spelling

theorem isRun (w : Spelled k) (h : EndsWord rest) :
    Text.IsRun Char.isAlphanum w.text rest := by
  obtain ⟨hne, hall⟩ := k.spelling_isWord
  rw [← w.spells] at hne hall
  refine ⟨fun hw => hne (by rw [hw]; rfl), fun x hx => ?_, h⟩
  rw [← Text.caseBlind_isAlphanum x]
  exact List.all_eq_true.mp hall _ (List.mem_map_of_mem hx)

theorem isLayout_head? (w : Spelled k) (rest : Text) :
    ∀ x ∈ (w.text ++ rest).head?, Text.isLayout x = false := by
  have hends : EndsWord [] := nofun
  have hrun := w.isRun hends
  exact isLayout_head?_word hrun.1 hrun.2.1 rest

/-- The node of a keyword in front of a rest. -/
def node (w : Spelled k) (rest : Text) : Node :=
  Node.leaf .reservedWord w.text rest

theorem commandWord_append (w : Spelled k) (hk : k ≠ .WHERE) (h : EndsWord rest) :
    commandWord (w.text ++ rest) = .found (w.node rest) rest := by
  refine word_append (w.isRun h) ?_
  rw [w.ofText?]
  cases k <;> first | rfl | exact absurd rfl hk

/-- A clause word leads a run of keywords. -/
theorem leadingWord_append (w : Spelled k) (hk : k ≠ .WHERE) (hclause : k.isClause = true)
    (h : EndsWord rest) : leadingWord (w.text ++ rest) = .found (w.node rest) rest := by
  have hword : isClauseWord w.text = true := by
    rw [isClauseWord, w.ofText?]
    exact hclause
  rw [leadingWord, w.commandWord_append hk h, Reading.bind_found]
  change (if isClauseWord w.text || partnerFollows w.text rest then _ else _) = _
  rw [hword]
  rfl

theorem arePaired_eq (w : Spelled k) (word : Text) :
    arePaired w.text word = (Keyword.ofText? word).any k.pairs := by
  rw [arePaired, w.ofText?]
  cases Keyword.ofText? word <;> rfl

/-- After a keyword only a word that leads a run continues one, unless the next word is
paired with the keyword. -/
theorem continuingWord_eq (w : Spelled k)
    (hpair : ∀ n rest, commandWord t = .found n rest →
      (Keyword.ofText? n.spelling).any k.pairs = false) :
    continuingWord w.text t = leadingWord t := by
  refine orElse_of_absent ?_
  cases hword : commandWord t with
  | absent => rfl
  | broken f => exact absurd hword word_ne_broken
  | found n rest =>
      rw [Reading.bind_found, w.arePaired_eq, hpair n rest hword]
      rfl

/-- No word is paired with a keyword that has no partner before it. -/
theorem partnerFollows_eq_false (w : Spelled k) (hk : ∀ j, Keyword.pairs j k = false) (g : Gap)
    (h : EndsWord rest) (word : Text) :
    partnerFollows word (g.text ++ (w.text ++ rest)) = false := by
  have hrun := w.isRun h
  rw [partnerFollows, g.dropWhile_append (w.isLayout_head? rest)]
  cases hword : commandWord (w.text ++ rest) with
  | absent => rfl
  | broken f => rfl
  | found n middle =>
      obtain ⟨_, _, rfl, -⟩ := word_eq_found.mp hword
      change arePaired word ((w.text ++ rest).takeWhile Char.isAlphanum) = false
      rw [hrun.takeWhile_append, arePaired, w.ofText?]
      cases Keyword.ofText? word with
      | none => rfl
      | some j => exact hk j

end Spelled

theorem Break.isLayout_head? (b : Break) (t : Text) :
    ∀ x ∈ (b.text ++ t).head?, Text.isLayout x = true := by
  obtain ⟨x, v, hv⟩ := List.exists_cons_of_ne_nil b.nonempty
  intro y hy
  rw [hv] at hy
  obtain rfl : x = y := Option.some.inj hy
  exact b.layout x (hv ▸ List.mem_cons_self)

/-- Whitespace stands between words. -/
theorem Break.endsWord (b : Break) (t : Text) : EndsWord (b.text ++ t) :=
  fun x hx => isAlphanum_eq_false_of_isLayout (b.isLayout_head? t x hx)

theorem Break.head?_ne (b : Break) (t : Text) {x : Char} (hx : Text.isLayout x = false) :
    (b.text ++ t).head? ≠ some x := fun h => by
  have hlayout := b.isLayout_head? t x h
  rw [hx] at hlayout
  cases hlayout

/-- A name ends where a keyword follows that has no partner before it. -/
theorem Break.closesName (b : Break) (w : Spelled k) (hk : ∀ j, Keyword.pairs j k = false)
    (h : EndsWord rest) : ClosesName (b.text ++ (w.text ++ rest)) :=
  ⟨b.endsWord _, b.head?_ne _ rfl, b.head?_ne _ rfl, w.partnerFollows_eq_false hk b.toGap h⟩

end Words

section Sequences

variable {keep : Category → Bool} {j k : Keyword} {t middle rest last : Text}
variable {n : Node} {ns : List Node}

/-- The keyword that a part of a run of keywords is, unless it is whitespace. -/
def keyword? (n : Node) : Option Keyword :=
  if n.category = .reservedWord then Keyword.ofText? n.spelling else none

theorem Spelled.keyword?_node (w : Spelled k) (rest : Text) : keyword? (w.node rest) = some k :=
  w.ofText?

theorem Spelled.noted_node (hskip : Node.SkipsWords keep) (w : Spelled k) (rest : Text) :
    (w.node rest).noted keep = [] := by
  rw [node, Node.noted_leaf, hskip.reservedWord]
  rfl

theorem filterMap_gapNodes (t : Text) : (gapNodes t).filterMap keyword? = [] := by
  unfold gapNodes
  split <;> rfl

/-- The keywords of a run are those of its parts, which links do not change. -/
theorem keywordsOf_branch (ns : List Node) (rest : Text) :
    keywordsOf (Node.branch .reservedWordSequence (Node.chain ns) rest) =
      ns.filterMap keyword? := by
  have hchain : (Node.chain ns).map keyword? = ns.map keyword? :=
    Node.map_chain (fun _ _ _ => rfl) ns
  have hreduce := congrArg (List.filterMap id) hchain
  rw [List.filterMap_map, List.filterMap_map] at hreduce
  rw [keywordsOf, List.filterMap_filter]
  simp only [decide_eq_true_eq]
  exact hreduce

/-- A run of keywords is read word by word to its end. -/
theorem reservedWordSequence_of_rounds (hfirst : leadingWord t = .found n middle)
    (hmore : Rounds (fun last => Grammar.spaced (continuingWord last)) lastWord n.spelling middle
      ns last rest)
    (hend : Grammar.spaced (continuingWord last) rest = .absent) :
    reservedWordSequence t =
      .found (Node.branch .reservedWordSequence (Node.chain (n :: ns)) rest) rest :=
  node_of_found (andThen_of_founds hfirst (hmore.repeated hend))

/-- A run ends after a keyword where no other word leads a run or is paired with the
keyword. -/
theorem Spelled.spaced_continuingWord (w : Spelled k)
    (hnext : leadingWord (rest.dropWhile Text.isLayout) = .absent)
    (hpair : ∀ n u, commandWord (rest.dropWhile Text.isLayout) = .found n u →
      (Keyword.ofText? n.spelling).any k.pairs = false) :
    Grammar.spaced (continuingWord w.text) rest = .absent := by
  rw [spaced_eq, w.continuingWord_eq hpair, hnext, Reading.map_absent]

theorem Keyword.IsSolitary.any_pairs (hk : k.IsSolitary) (l : Option Keyword) :
    l.any k.pairs = false := by
  cases l with
  | none => rfl
  | some l => exact hk.unpaired l

/-- Whether a text begins with a run of the given keywords, of which nothing is noted. -/
def ReadsWords (keep : Category → Bool) (t : Text) (words : List Keyword) (rest : Text) : Prop :=
  ∃ n, reservedWordSequence t = .found n rest ∧ keywordsOf n = words ∧ n.noted keep = []

/-- A keyword that leads a run and is continued by nothing is a run of its own. -/
theorem Spelled.readsWords_alone (w : Spelled k) (hwhere : k ≠ .WHERE)
    (hclause : k.isClause = true) (hskip : Node.SkipsWords keep) (h : EndsWord rest)
    (hend : Grammar.spaced (continuingWord w.text) rest = .absent) :
    ReadsWords keep (w.text ++ rest) [k] rest := by
  refine ⟨_, reservedWordSequence_of_rounds (w.leadingWord_append hwhere hclause h)
    (.done _ _) hend, ?_, ?_⟩
  · rw [keywordsOf_branch, List.filterMap_cons, w.keyword?_node]
    rfl
  · rw [Node.noted_branch hskip.reservedWordSequence, Node.flatMap_noted_chain,
      List.flatMap_singleton, w.noted_node hskip]

theorem Spelled.readsWords_single (w : Spelled k) (hk : k.IsSolitary)
    (hskip : Node.SkipsWords keep) (h : EndsWord rest)
    (hnext : leadingWord (rest.dropWhile Text.isLayout) = .absent) :
    ReadsWords keep (w.text ++ rest) [k] rest :=
  w.readsWords_alone hk.ne_where hk.clause hskip h
    (w.spaced_continuingWord hnext fun _ _ _ => hk.any_pairs _)

theorem Spelled.readsWords_pair (v : Spelled j) (hj : j.IsSolitary) (b : Break)
    (w : Spelled k) (hk : k.IsSolitary) (hskip : Node.SkipsWords keep) (h : EndsWord rest)
    (hnext : leadingWord (rest.dropWhile Text.isLayout) = .absent) :
    ReadsWords keep (v.text ++ (b.text ++ (w.text ++ rest))) [j, k] rest := by
  have hword := w.leadingWord_append hk.ne_where hk.clause h
  have hspaced : Grammar.spaced (continuingWord v.text) (b.text ++ (w.text ++ rest)) =
      .found (gapNodes (b.text ++ (w.text ++ rest)) ++ [w.node rest]) rest :=
    b.spaced_append_found (w.isLayout_head? rest)
      ((v.continuingWord_eq fun _ _ _ => hj.any_pairs _).trans hword)
  have hlength : rest.length < (b.text ++ (w.text ++ rest)).length := by
    have hbreak := List.length_pos_of_ne_nil b.nonempty
    rw [List.length_append, List.length_append]
    omega
  have hlast : (gapNodes (b.text ++ (w.text ++ rest)) ++ [w.node rest]).foldl lastWord v.text =
      w.text := by
    rw [List.foldl_append]
    rfl
  have hround : Rounds (fun last => Grammar.spaced (continuingWord last)) lastWord v.text
      (b.text ++ (w.text ++ rest)) (gapNodes (b.text ++ (w.text ++ rest)) ++ [w.node rest]) _
      rest :=
    .single hspaced hlength
  rw [hlast] at hround
  refine ⟨_, reservedWordSequence_of_rounds
    (v.leadingWord_append hj.ne_where hj.clause (b.endsWord _)) hround
    (w.spaced_continuingWord hnext fun _ _ _ => hk.any_pairs _), ?_, ?_⟩
  · rw [keywordsOf_branch, List.filterMap_cons, v.keyword?_node, List.filterMap_append,
      filterMap_gapNodes, List.filterMap_cons, w.keyword?_node]
    rfl
  · rw [Node.noted_branch hskip.reservedWordSequence, Node.flatMap_noted_chain, List.flatMap_cons,
      v.noted_node hskip, List.flatMap_append, Node.flatMap_noted_gapNodes hskip,
      List.flatMap_singleton, w.noted_node hskip]
    rfl

end Sequences

section Commands

variable {keep : Category → Bool} {room : Nat} {s : NameContext} {labels : List Label}
variable {t middle rest after : Text} {ms : List Node}

/-- A command is read part by part: its keywords, its items, and what continues it. -/
theorem command_of_items {words : List Keyword} (hskip : Node.SkipsWords keep)
    (hwords : ReadsWords keep t words after)
    (hitems : Items keep room (NameContext.ofKeywords words) after labels s middle)
    (hend : Grammar.spaced (commandItem room s) middle = .absent)
    (hnext : Recognizer.optional (Grammar.spaced (command room)) middle = .found ms rest) :
    ∃ n, command (room + 1) t = .found n rest ∧
      n.noted keep = labels ++ ms.flatMap (Node.noted keep) := by
  obtain ⟨w, hw, rfl, hnoted⟩ := hwords
  obtain ⟨ns, hrounds, rfl⟩ := hitems
  have hitems : commandItems room (keywordsOf w) after = .found ns middle :=
    hrounds.repeated hend
  refine ⟨_, node_of_found (andThen_of_founds hw (seq_of_founds hitems hnext)), ?_⟩
  rw [Node.noted_branch hskip.command, Node.flatMap_noted_chain, List.flatMap_cons, hnoted,
    List.flatMap_append]
  rfl

theorem command_eq_absent (room : Nat) (h : leadingWord t = .absent) :
    command room t = .absent := by
  have hwords := reservedWordSequence_eq_absent h
  cases room with
  | zero => exact refused_of_absent hwords
  | succ room => exact node_of_absent (andThen_of_absent hwords)

/-- `WHERE` leads no run of keywords. -/
theorem Spelled.leadingWord_where (w : Spelled .WHERE) (h : EndsWord rest) :
    leadingWord (w.text ++ rest) = .absent := by
  have hword : commandWord (w.text ++ rest) = .absent :=
    word_eq_absent_of_refused (w.isRun h) (by rw [w.ofText?])
  rw [leadingWord, hword, Reading.bind_absent]

/-- `WHERE` begins with a letter that is no hexadecimal digit. -/
theorem Spelled.exists_cons_where (w : Spelled .WHERE) :
    ∃ x v, w.text = x :: v ∧ x.isAlphanum = true ∧ Text.isHexDigit x = false := by
  have hends : EndsWord [] := nofun
  have hrun := w.isRun hends
  obtain ⟨x, v, hw⟩ := List.exists_cons_of_ne_nil hrun.1
  refine ⟨x, v, hw, hrun.2.1 x (hw ▸ List.mem_cons_self), ?_⟩
  have hupper := w.spells
  rw [hw, Text.upper_cons] at hupper
  rw [← Text.caseBlind_isHexDigit x, (List.cons.inj hupper).1]
  rfl

theorem Spelled.head?_where_ne (w : Spelled .WHERE) (rest : Text) {y : Char}
    (hy : y.isAlphanum = false) : (w.text ++ rest).head? ≠ some y := by
  obtain ⟨x, v, hw, halnum, -⟩ := w.exists_cons_where
  rw [hw]
  rintro ⟨⟩
  rw [halnum] at hy
  cases hy

/-- `WHERE` is no name, and as its first letter is no hexadecimal digit, no blob either. -/
theorem Spelled.selector_where (w : Spelled .WHERE) (h : EndsWord rest) (role : Category) :
    selector role (w.text ++ rest) = .absent := by
  obtain ⟨x, v, hw, -, hhex⟩ := w.exists_cons_where
  have hclause : isClauseWord w.text = true := by
    rw [isClauseWord, w.ofText?]
    rfl
  have hname : itemName (w.text ++ rest) = .absent := by
    have hquote := itemNameCaseSensitive_eq_absent (w.head?_where_ne rest (y := '"') rfl)
    refine wrap_of_absent ((orElse_of_absent hquote).trans ?_)
    exact word_eq_absent_of_refused (w.isRun h) (by rw [hclause, Bool.not_true, Bool.and_false])
  have hliteral : literal (w.text ++ rest) = .absent := by
    refine literal_eq_absent (fun y hy => ?_) (w.head?_where_ne rest rfl)
    rw [hw] at hy
    exact Option.some.inj hy ▸ hhex
  rw [selector_of_itemName_absent role hname]
  exact wrap_of_absent ((orElse_of_absent
    (delimiter_eq_absent (w.head?_where_ne rest rfl))).trans hliteral)

/-- `WHERE` ends the items of a command. -/
theorem Spelled.commandItem_where (w : Spelled .WHERE) (h : EndsWord rest) (room : Nat)
    (s : NameContext) : commandItem room s (w.text ++ rest) = .absent := by
  have hsymbol : symbol (w.text ++ rest) = .absent := by
    obtain ⟨x, v, hw, halnum, -⟩ := w.exists_cons_where
    refine single_eq_absent fun y hy => ?_
    rw [hw] at hy
    obtain rfl : x = y := Option.some.inj hy
    have hnone : symbols.any Char.isAlphanum = false := by decide
    by_contra hmem
    exact List.any_eq_false.mp hnone x (by simpa using hmem) halnum
  have hcollection := collection_eq_absent room (w.head?_where_ne rest (y := '[') rfl)
    (w.head?_where_ne rest (y := '\x7b') rfl)
  rw [commandItem_of_leadingWord (w.leadingWord_where h), plainItem]
  exact (orElse_of_absent ((orElse_of_absent hcollection).trans
    (w.selector_where h s.role))).trans hsymbol

end Commands

section Statements

variable {depth : Nat} {t middle rest last : Text} {n : Node} {ms ts : List Node}

/-- A source is read part by part: a command, a condition with what continues it, and the
end. -/
theorem parse_of_parts (hcommand : command depth (t.dropWhile Text.isLayout) = .found n middle)
    (hcondition : Recognizer.optional ((Grammar.spaced condition).seq
      (Recognizer.optional (Grammar.spaced (command depth)))) middle = .found ms rest)
    (hend : Recognizer.optional (Grammar.spaced terminator) rest = .found ts last)
    (hlast : last.dropWhile Text.isLayout = []) :
    parse depth t =
      .ok (Node.branch .statement (gapNodes t ++ [n] ++ ms ++ ts ++ gapNodes last) []) := by
  have hspace := optional_whitespace last
  rw [hlast] at hspace
  have hstatement : statementParts depth t =
      .found (gapNodes t ++ [n] ++ ms ++ ts ++ gapNodes last) [] :=
    seq_of_founds (seq_of_founds (seq_of_founds (seq_of_founds (optional_whitespace t)
      (one_of_found (required_of_found .command hcommand))) hcondition) hend) hspace
  refine parse_eq_ok.mpr ?_
  rw [statement, hstatement]
  rfl

/-- A source that is one command with whitespace on its sides. -/
theorem parse_of_command (g : Gap)
    (h : command depth (t.dropWhile Text.isLayout) = .found n g.text) :
    parse depth t = .ok (Node.branch .statement (gapNodes t ++ [n] ++ gapNodes g.text) []) := by
  have hdrop := g.dropWhile_append (t := []) nofun
  rw [List.append_nil] at hdrop
  have hparts := parse_of_parts h
    (optional_of_absent (seq_of_absent (g.spaced_eq_absent rfl)))
    (optional_of_absent (g.spaced_eq_absent rfl)) hdrop
  rwa [List.append_nil, List.append_nil] at hparts

/-- Nothing is written over a node of a tree that has just been read. -/
theorem text_of_mem_preorder {m root : Node} (h : root.Everywhere Node.Formed)
    (hm : m ∈ root.preorder) : m.text = m.spelling :=
  Node.text_eq_spelling ((h.of_mem hm).mono fun _ hf => hf.unwritten)

theorem map_text_nodes {root : Node} (h : root.Everywhere Node.Formed) (c : Category) :
    (root.nodes c).map Node.text = (root.nodes c).map Node.spelling := by
  refine List.map_congr_left fun m hm => ?_
  rw [Node.nodes_eq_filter] at hm
  exact text_of_mem_preorder h (List.mem_of_mem_filter hm)

end Statements

end QueryTree
