import QueryTree.Grammar.Statement
import QueryTree.Proofs.Derivation.Terminals

/-!
# Statements are derivations

Every production reads a phrase of its language, from the selectors up to the
statement. A source that is read as a statement is therefore covered by a tree of
well-formed nodes.
-/

namespace QueryTree.Grammar

open scoped Computability
open Recognizer Phrase

/-- Dropping some of what a recognizer finds leaves phrases of its language. -/
theorem filter_finds {r : Recognizer Node} {l : Language Label} (h : r.Finds l)
    (keep : Node → Text → Bool) :
    Recognizer.Finds (fun t => (r t).bind fun n rest =>
      if keep n rest then .found n rest else .absent) l := by
  intro t n rest hr
  obtain ⟨m, middle, hm, hr⟩ := Reading.bind_eq_found.mp hr
  split at hr
  · obtain ⟨rfl, rfl⟩ := Reading.found.inj hr
    exact h t m middle hm
  · cases hr

theorem spaced_yields {r : Recognizer Node} {l : Language Label} (h : r.Finds l) :
    (Grammar.spaced r).Yields (Phrase.spaced l) :=
  whitespace_finds.one.optional.seq h.one

section Selectors

theorem itemNameCaseSensitive_eq_absent {t : Text} (h : t.head? ≠ some '"') :
    itemNameCaseSensitive t = .absent := by
  unfold itemNameCaseSensitive itemNameCaseSensitiveUnder
  split
  next => exact absurd rfl h
  next => rfl

theorem itemNameCaseSensitive_finds :
    itemNameCaseSensitive.Finds (part .itemNameCaseSensitive) := by
  intro t n rest h
  cases t with
  | nil => cases h
  | cons c t =>
      by_cases hc : c = '"'
      · subst hc
        simp only [itemNameCaseSensitive, itemNameCaseSensitiveUnder, Bool.and_eq_true,
          Bool.not_eq_true', List.isEmpty_eq_false_iff, List.all_eq_true] at h
        split at h
        next => cases h
        next d rest' hdrop =>
          split at h
          next hbody =>
            obtain ⟨rfl, rfl⟩ := Reading.found.inj h
            obtain rfl : d = '"' := by
              have := List.head?_dropWhile_not (fun x : Char => x != '"') t
              simpa [hdrop] using this
            have ht : t.takeWhile (· != '"') ++ '"' :: rest' = t := by
              rw [← hdrop, List.takeWhile_append_dropWhile]
            have hspells : Category.Spells .itemNameCaseSensitive
                ('"' :: (t.takeWhile (· != '"') ++ ['"'])) rest' :=
              ⟨_, hbody.1, hbody.2, rfl⟩
            have hleaf := Derives.leaf (c := .itemNameCaseSensitive) rfl (List.cons_ne_nil _ _)
              hspells
            simpa only [List.cons_append, List.append_assoc, List.nil_append, ht] using hleaf
          next => cases h
      · unfold itemNameCaseSensitive itemNameCaseSensitiveUnder at h
        split at h
        next heq => exact absurd (List.cons.inj heq).1 hc
        next => cases h

theorem itemName_finds : itemName.Finds (part .itemName) :=
  (itemNameCaseSensitive_finds.orElse itemNameCaseInsensitive_finds).wrap
    rfl fun _ _ => trivial

theorem mixedBlob_finds (length : Nat) : (mixedBlob length).Finds (part .hexBlob) :=
  filter_finds hexBlob_finds fun n _ => length < n.spelling.length && isMixed n.spelling

theorem blobBeyond_finds (r : Recognizer Node) : (blobBeyond r).Finds (part .hexBlob) := by
  intro t n rest h
  obtain ⟨m, _, _, h⟩ := Reading.bind_eq_found.mp h
  exact mixedBlob_finds _ t n rest h

theorem string_finds : string.Finds (part .string) := by
  intro t n rest h
  obtain ⟨s, rfl, hrest, rfl⟩ := eq_quoted_of_string h
  have hparts : Derives (Category.parts .string) (Text.quoted s ++ rest)
      (quotationParts s rest) rest := by
    have hopen : Derives (part .quote) (Text.quoted s ++ rest)
        [Node.leaf .quote ['\''] (Text.doubleQuotes s ++ '\'' :: rest)]
        (Text.doubleQuotes s ++ '\'' :: rest) := by
      rw [Text.quoted_append]
      exact Derives.leaf (c := .quote) (w := ['\'']) rfl (List.cons_ne_nil _ _) rfl
    have hclose : Derives (part .quote) ('\'' :: rest) [Node.leaf .quote ['\''] rest] rest :=
      Derives.leaf (c := .quote) (w := ['\'']) rfl (List.cons_ne_nil _ _) rfl
    have hbody : Derives (maybe (part .inputCharacters)) (Text.doubleQuotes s ++ '\'' :: rest)
        (if s.isEmpty then []
          else [Node.leaf .inputCharacters (Text.doubleQuotes s) ('\'' :: rest)])
        ('\'' :: rest) := by
      cases s with
      | nil => exact Derives.nil.mono le_sup_left
      | cons c s =>
          have hne : Text.doubleQuotes (c :: s) ≠ [] := by simp
          exact (Derives.leaf (c := .inputCharacters) rfl hne
            ⟨c :: s, List.cons_ne_nil c s, rfl⟩).mono le_sup_right
    exact (hopen.append hbody).append hclose
  refine hparts.chain.branch rfl ⟨s, ?_, hrest⟩
  rw [Node.map_spelling_chain, quotationParts_spelling]

theorem literal_finds : literal.Finds (part .literal) := by
  have hnumber : part .number ≤ Category.parts .literal := le_sup_left.trans le_sup_left
  have hstring : part .string ≤ Category.parts .literal := le_sup_right.trans le_sup_left
  have hblob : part .hexBlob ≤ Category.parts .literal := le_sup_right
  have h := (((blobBeyond_finds number).orElse number_finds).orElse string_finds).orElse
    hexBlob_finds
  exact (h.mono (sup_le (sup_le (sup_le hblob hnumber) hstring) hblob)).wrap
    rfl fun _ _ => trivial

theorem qualifiedName_finds {role : Category} (hparts : Phrase.qualifiedName ≤ role.parts)
    (hrole : role.isComposite = true) (hspells : ∀ w rest, role.Spells w rest) :
    (Grammar.qualifiedName role).Finds (part role) :=
  Yields.node ((itemName_finds.one.seq
    (accessor_finds.one.seq (itemName_finds.orFault _).one).optional).mono hparts) hrole hspells

/-- The roles of names. -/
def IsRole (c : Category) : Prop :=
  c = .tableName ∨ c = .fieldName ∨ c = .selectorItem

theorem NameContext.isRole_role (context : NameContext) : IsRole context.role := by
  unfold NameContext.role IsRole
  split
  · simp
  · split <;> simp

theorem selector_finds {role : Category} (hrole : IsRole role) :
    (selector role).Finds (part role + part .selectorItem) := by
  have hwrap : ∀ {r : Recognizer Node} {c : Category}, r.Finds (part c) →
      part c ≤ Category.parts .selectorItem →
      (wrap .selectorItem r).Finds (part role + part .selectorItem) := fun hr hle =>
    ((hr.mono hle).wrap rfl fun _ _ => trivial).mono le_sup_right
  have hliteral : part .literal ≤ Category.parts .selectorItem := le_sup_right
  have hmark : part .placeholderInject ≤ Category.parts .selectorItem :=
    le_sup_right.trans le_sup_left
  have hblob : (wrap .literal (blobBeyond itemName)).Finds (part .literal) :=
    ((blobBeyond_finds itemName).mono le_sup_right).wrap rfl fun _ _ => trivial
  have hname : (Grammar.qualifiedName role).Finds (part role + part .selectorItem) := by
    refine Finds.mono ?_ le_sup_left
    rcases hrole with rfl | rfl | rfl
    · exact qualifiedName_finds le_rfl rfl fun _ _ => trivial
    · exact qualifiedName_finds le_rfl rfl fun _ _ => trivial
    · exact qualifiedName_finds (le_sup_left.trans le_sup_left) rfl
        fun _ _ => trivial
  have hother : (wrap .selectorItem (placeholder.orElse literal)).Finds
      (part role + part .selectorItem) := by
    refine (((placeholder_finds.orElse literal_finds).mono (sup_le hmark hliteral)).wrap
      rfl fun _ _ => trivial).mono le_sup_right
  intro t n rest h
  rcases orElse_eq_found.mp h with h | ⟨_, h⟩
  · exact hwrap hblob hliteral t n rest h
  · rcases orElse_eq_found.mp h with h | ⟨_, h⟩
    · exact hname t n rest h
    · exact hother t n rest h

theorem selectorItem_finds : selectorItem.Finds (part .selectorItem) :=
  (selector_finds (Or.inr (Or.inr rfl))).mono (sup_le le_rfl le_rfl)

end Selectors

section Sequences

theorem leadingWord_finds : leadingWord.Finds (part .reservedWord) :=
  filter_finds commandWord_finds fun n rest =>
    isClauseWord n.spelling || partnerFollows n.spelling rest

theorem continuingWord_finds (last : Text) : (continuingWord last).Finds (part .reservedWord) :=
  ((filter_finds commandWord_finds fun n _ => arePaired last n.spelling).orElse
    leadingWord_finds).mono (sup_le le_rfl le_rfl)

/-- Whether a text does not go on with a letter or a digit. -/
def EndsWord (t : Text) : Prop :=
  ∀ c ∈ t.head?, c.isAlphanum = false

theorem isRun_of_reservedWord {t rest : Text} {n : Node}
    (h : Derives (part .reservedWord) t [n] rest) :
    n.spelling ++ rest = t ∧ Text.IsRun Char.isAlphanum n.spelling rest := by
  obtain ⟨hcover, hrest⟩ := Node.tiles_singleton.mp h.tiles
  have hspells := (h.formed n List.mem_cons_self).self.spells
  rw [label_mem_part.mp h.labels, hrest] at hspells
  exact ⟨hrest ▸ hcover, hspells.1⟩

/-- Keywords in a row have whitespace between them, for a word is as long as it can
be. -/
theorem continuation_derives {last t rest : Text} {ns : List Node} (ht : EndsWord t)
    (h : Grammar.spaced (continuingWord last) t = .found ns rest) :
    Derives (part .whitespace * part .reservedWord) t ns rest ∧ EndsWord rest := by
  obtain ⟨as, middle, bs, ha, hb, rfl⟩ := seq_eq_found.mp h
  obtain ⟨n, hn, rfl⟩ := Reading.map_eq_found.mp hb
  have hword := continuingWord_finds last middle n rest hn
  obtain ⟨hcover, hrun⟩ := isRun_of_reservedWord hword
  refine ⟨?_, hrun.2.2⟩
  rcases orElse_eq_found.mp ha with ha | ⟨_, ha⟩
  · exact (whitespace_finds.one t as middle ha).append hword
  · obtain ⟨rfl, rfl⟩ := Reading.found.inj ha
    obtain ⟨c, w, hw⟩ := List.exists_cons_of_ne_nil hrun.1
    have hc : c.isAlphanum = true := hrun.2.1 c (hw ▸ List.mem_cons_self)
    have hhead : c ∈ t.head? := by simp [← hcover, hw]
    exact absurd hc (by simp [ht c hhead])

theorem reservedWordSequence_finds :
    reservedWordSequence.Finds (part .reservedWordSequence) := by
  intro t n rest h
  obtain ⟨ns, hns, rfl⟩ := node_eq_found.mp h
  obtain ⟨first, after, more, hfirst, hmore, rfl⟩ := andThen_eq_found.mp hns
  have hword := leadingWord_finds t first after hfirst
  have hafter : EndsWord after := (isRun_of_reservedWord hword).2.2.2
  have hrest := repeatUpTo_derives EndsWord
    (fun _ _ _ _ ht hstep => continuation_derives ht hstep) hafter hmore
  exact (hword.append hrest).chain.branch (c := .reservedWordSequence) rfl trivial

end Sequences

section Collections

theorem elements_yields {first next close : Recognizer Node} {element finish : Category}
    (hfirst : first.Finds (part element)) (hnext : next.Finds (part element))
    (hclose : close.Finds (part finish)) (unclosed : Text → Fault) :
    (elements first next close unclosed).Yields
      (maybe (Phrase.spaced (part element) *
          (Phrase.spaced Phrase.comma * Phrase.spaced (part element))∗) *
        Phrase.spaced (part finish)) := by
  have hmore := ((spaced_yields comma_finds).seq (spaced_yields hnext)).many
  have hfull := ((spaced_yields hfirst).seq hmore).seq
    (spaced_yields (hclose.orFault unclosed))
  have hempty := spaced_yields hclose
  apply (hfull.orElse hempty).mono
  apply sup_le
  · exact mul_le_mul_left le_sup_right _
  · calc
      Phrase.spaced (part finish) = 1 * Phrase.spaced (part finish) := (one_mul _).symm
      _ ≤ _ := mul_le_mul_left le_sup_left _

theorem arrayLiteral_finds (room : Nat) : (arrayLiteral room).Finds (part .arrayLiteral) := by
  cases room with
  | zero => exact refused_finds
  | succ room =>
      have hopen : (delimiter '[' .arrayStart).Finds (part .arrayStart) :=
        delimiter_finds rfl fun _ => rfl
      have hclose : (delimiter ']' .arrayEnd).Finds (part .arrayEnd) :=
        delimiter_finds rfl fun _ => rfl
      exact Yields.node (hopen.one.seq (elements_yields selectorItem_finds
        (selectorItem_finds.orFault _) hclose _)) rfl
        fun _ _ => trivial

theorem mapEntry_finds (demand : Demand) : (mapEntry demand).Finds (part .mapEntry) :=
  Yields.node (((selectorItem_finds.under demand _).one.seq
      ((spaced_yields mapSeparator_finds).under demand _)).seq
      (spaced_yields (selectorItem_finds.orFault _)))
    rfl fun _ _ => trivial

theorem mapLiteral_finds (room : Nat) : (mapLiteral room).Finds (part .mapLiteral) := by
  cases room with
  | zero => exact refused_finds
  | succ room =>
      have hopen : (delimiter '\x7b' .mapStart).Finds (part .mapStart) :=
        delimiter_finds rfl fun _ => rfl
      have hclose : (delimiter '\x7d' .mapEnd).Finds (part .mapEnd) :=
        delimiter_finds rfl fun _ => rfl
      exact Yields.node (hopen.one.seq (elements_yields (mapEntry_finds .optional)
        (mapEntry_finds .mandatory) hclose _)) rfl
        fun _ _ => trivial

end Collections

section Commands

theorem otherThan_finds {stop r : Recognizer Node} {l : Language Label} (h : r.Finds l) :
    (otherThan stop r).Finds l := by
  intro t n rest hr
  unfold otherThan at hr
  split at hr
  next => cases hr
  next => exact h t n rest hr
  next => cases hr

theorem part_le_item {c : Category}
    (hc : c ∈ [Category.arrayLiteral, .mapLiteral, .selectorItem, .fieldName, .tableName,
      .symbol, .reservedWordSequence]) : part c ≤ item := by
  intro w hw
  simp only [List.mem_cons, List.not_mem_nil, or_false] at hc
  rcases hc with rfl | rfl | rfl | rfl | rfl | rfl | rfl
  · exact Or.inl (Or.inl (Or.inl (Or.inl (Or.inl (Or.inl hw)))))
  · exact Or.inl (Or.inl (Or.inl (Or.inl (Or.inl (Or.inr hw)))))
  · exact Or.inl (Or.inl (Or.inl (Or.inl (Or.inr hw))))
  · exact Or.inl (Or.inl (Or.inl (Or.inr hw)))
  · exact Or.inl (Or.inl (Or.inr hw))
  · exact Or.inl (Or.inr hw)
  · exact Or.inr hw

theorem plainItem_finds {role : Category} (hrole : IsRole role) (room : Nat) :
    (plainItem room role).Finds item := by
  have hselector : part role + part .selectorItem ≤ item := by
    apply sup_le (part_le_item ?_) (part_le_item (by simp))
    rcases hrole with rfl | rfl | rfl <;> simp
  have h := (((arrayLiteral_finds room).orElse (mapLiteral_finds room)).orElse
    (selector_finds hrole)).orElse symbol_finds
  exact h.mono (sup_le (sup_le (sup_le (part_le_item (by simp)) (part_le_item (by simp)))
    hselector) (part_le_item (by simp)))

theorem commandItem_finds (room : Nat) (context : NameContext) :
    (commandItem room context).Finds item := by
  unfold commandItem
  split
  · exact (reservedWordSequence_finds.orElse
      (plainItem_finds context.isRole_role room)).mono
        (sup_le (part_le_item (by simp)) le_rfl)
  · exact otherThan_finds (plainItem_finds context.isRole_role room)

theorem command_finds (room : Nat) : (command room).Finds (part .command) := by
  induction room with
  | zero => exact refused_finds
  | succ room ih =>
      have hitems : ∀ words, (commandItems room (keywordsOf words)).Yields
          (Phrase.spaced item)∗ := fun _ =>
        Yields.repeated fun context => spaced_yields (commandItem_finds room context)
      exact Yields.node (reservedWordSequence_finds.andThen fun words =>
        (hitems words).seq (spaced_yields ih).optional)
        rfl fun _ _ => trivial

end Commands

section Conditions

theorem conditionItem_finds (demand : Demand) :
    (conditionItemUnder demand).Finds (part .conditionItem) :=
  Yields.node (((selectorItem_finds.under demand _).one.seq
      (spaced_yields ((operator_finds.orElse symbol_finds).orFault _))).seq
      (spaced_yields (selectorItem_finds.orFault _)))
    rfl fun _ _ => trivial

theorem conditionChain_finds (demand : Demand) :
    (conditionChain demand).Finds (part .conditionChain) :=
  Yields.node ((conditionItem_finds demand).one.seq
      (((spaced_yields conjunction_finds).seq (whitespace_finds.orFault _).one).seq
        ((conditionItem_finds .optional).orFault _).one).many)
    rfl fun _ _ => trivial

theorem condition_finds : condition.Finds (part .condition) :=
  Yields.node ((whereKeyword_finds.one.seq (whitespace_finds.orFault _).one).seq
      (conditionChain_finds .mandatory).one)
    rfl fun _ _ => trivial

end Conditions

theorem statementParts_yields (depth : Nat) :
    (statementParts depth).Yields (Category.parts .statement) :=
  (((whitespace_finds.one.optional.seq ((command_finds depth).orFault _).one).seq
      ((spaced_yields condition_finds).seq
        (spaced_yields (command_finds depth)).optional).optional).seq
      (spaced_yields terminator_finds).optional).seq whitespace_finds.one.optional

/-- A statement covers all of its text. -/
theorem statement_eq_found {depth : Nat} {t rest : Text} {n : Node} :
    statement depth t = .found n rest ↔
      rest = [] ∧ ∃ ns, statementParts depth t = .found ns [] ∧
        Node.branch .statement ns [] = n := by
  unfold statement
  rw [Reading.bind_eq_found]
  constructor
  · rintro ⟨ns, middle, hns, hn⟩
    split at hn
    next hmiddle =>
      obtain ⟨rfl, rfl⟩ := Reading.found.inj hn
      obtain rfl := List.isEmpty_iff.mp hmiddle
      exact ⟨rfl, ns, hns, rfl⟩
    next => cases hn
  · rintro ⟨rfl, ns, hns, rfl⟩
    exact ⟨ns, [], hns, rfl⟩

theorem statement_finds (depth : Nat) : (statement depth).Finds (part .statement) := by
  intro t n rest h
  obtain ⟨rfl, ns, hns, rfl⟩ := statement_eq_found.mp h
  exact (statementParts_yields depth t ns [] hns).branch rfl trivial

end QueryTree.Grammar

namespace QueryTree

theorem parse_eq_ok {depth : Nat} {q : Text} {root : Node} :
    parse depth q = .ok root ↔ Grammar.statement depth q = .found root [] := by
  unfold parse
  cases h : Grammar.statement depth q with
  | found n rest => simp [(Grammar.statement_eq_found.mp h).1]
  | absent => simp
  | broken fault => simp

theorem exists_tree_of_isOk (depth : Nat) (q : Text) (h : (parse depth q).isOk = true) :
    ∃ root, parse depth q = .ok root := by
  cases hparse : parse depth q with
  | ok root => exact ⟨root, rfl⟩
  | error e => simp [hparse, Except.isOk, Except.toBool] at h

/-- A source that is read is derived as a statement. -/
theorem derives_of_parse {depth : Nat} {q : Text} {root : Node}
    (h : parse depth q = .ok root) : Derives (Phrase.part .statement) q [root] [] :=
  Grammar.statement_finds depth q root [] (parse_eq_ok.mp h)

/-- All nodes of the tree of a source are well formed. -/
theorem formed_of_parse {depth : Nat} {q : Text} {root : Node}
    (h : parse depth q = .ok root) : root.Everywhere Node.Formed :=
  (derives_of_parse h).formed root List.mem_cons_self

end QueryTree
