import QueryTree.Proofs.Keywords.Blobs
import QueryTree.Proofs.Keywords.Sequence

/-!
# Blobs in the tree of a source

Every production is followed backwards: what may come after a selector decides whether the
blob that it ends with can be what is left of a clause word. Arrays, maps and comparisons put
whitespace, punctuation or a keyword behind their selectors, and so does a statement behind
its condition. The items of a command are read only where no clause word begins.
-/

namespace QueryTree

open Recognizer Grammar

/-- The categories of leaves without letters, digits and quotes. -/
def Category.isPunctuation : Category → Bool
  | .whitespace | .symbol | .operator | .accessor | .mapSeparator | .terminator
  | .arrayStart | .arrayEnd | .mapStart | .mapEnd | .placeholderInject => true
  | _ => false

/-- The quotes around strings and names. -/
def Text.quotes : Text :=
  ['\'', '"']

/-- The categories of leaves that begin with no word, or with a word of the vocabulary. -/
def Category.isDivider (c : Category) : Bool :=
  c.isPunctuation || c == .reservedWord || c == .whereKeyword

theorem Category.isBlobless_of_isDivider {c : Category} (h : c.isDivider = true) :
    c.isBlobless = true := by
  revert h
  cases c <;> decide

section Nodes

variable {n : Node} {t rest : Text}

theorem Category.Spells.punctuation {c : Category} {w rest : Text} (h : c.Spells w rest)
    (hc : c.isPunctuation = true) : ∀ x ∈ w, x.isAlphanum = false ∧ x ∉ Text.quotes := by
  have hclosed : ∀ v : Text, v.all (fun x => !x.isAlphanum && !Text.quotes.contains x) = true →
      ∀ x ∈ v, x.isAlphanum = false ∧ x ∉ Text.quotes := by
    intro v hv x hx
    simpa using List.all_eq_true.mp hv x hx
  cases c with
  | whitespace =>
      intro x hx
      have hlayout := h.2.1 x hx
      refine ⟨isAlphanum_eq_false_of_isLayout hlayout, fun hquote => ?_⟩
      revert hlayout
      rcases List.mem_pair.mp hquote with rfl | rfl <;> decide
  | symbol =>
      obtain ⟨d, hd, rfl⟩ := h
      exact List.forall_mem_singleton.mpr (hclosed symbols (by decide) d hd)
  | operator =>
      have hall : ∀ v ∈ [['<', '='], ['>', '='], ['!', '='], ['<'], ['>']],
          v.all (fun x => !x.isAlphanum && !Text.quotes.contains x) = true := by decide
      exact hclosed w (hall w h)
  | accessor => exact h ▸ hclosed _ (by decide)
  | mapSeparator => exact h ▸ hclosed _ (by decide)
  | terminator => exact h ▸ hclosed _ (by decide)
  | arrayStart => exact h ▸ hclosed _ (by decide)
  | arrayEnd => exact h ▸ hclosed _ (by decide)
  | mapStart => exact h ▸ hclosed _ (by decide)
  | mapEnd => exact h ▸ hclosed _ (by decide)
  | placeholderInject => exact h ▸ hclosed _ (by decide)
  | _ => cases hc

theorem Node.Formed.endsWord (h : n.Formed) (hc : n.category.isPunctuation = true) :
    EndsWord (n.spelling ++ n.following) := by
  obtain ⟨x, w, hw⟩ := List.exists_cons_of_ne_nil h.nonempty
  rw [hw]
  rintro _ ⟨⟩
  exact (h.spells.punctuation hc x (hw ▸ List.mem_cons_self)).1

theorem Node.Formed.beginsAfresh (h : n.Formed) (hc : n.category.isDivider = true) :
    BeginsAfresh (n.spelling ++ n.following) := by
  have hword : Text.IsRun Char.isAlphanum n.spelling n.following →
      isReservedWord n.spelling = true → BeginsAfresh (n.spelling ++ n.following) := by
    intro hrun hreserved
    refine Or.inr ?_
    rwa [hrun.takeWhile_append]
  have hspells := h.spells
  rw [Category.isDivider, Bool.or_eq_true, Bool.or_eq_true, beq_iff_eq, beq_iff_eq] at hc
  rcases hc with (hc | hc) | hc
  · exact Or.inl (h.endsWord hc)
  · rw [hc] at hspells
    exact hword hspells.1 hspells.2
  · rw [hc] at hspells
    refine hword hspells.1 ?_
    rw [isReservedWord, ofText?_eq_where.mpr hspells.2]
    rfl

/-- Whether a clause word does not begin here, or no word goes on after what is read. -/
def Uncut (t rest : Text) : Prop :=
  ¬BeginsClause t ∨ BeginsAfresh rest

/-- Where no command begins, no clause word ends the items of one. -/
theorem not_beginsClause_of_leadingWord (h : leadingWord t = .absent) : ¬BeginsClause t := by
  rintro ⟨hclause, hwhere⟩
  have hrun := Text.isRun_takeWhile (ne_nil_of_isClauseWord hclause)
  have hreserved : isReservedWord (t.takeWhile Char.isAlphanum) = true := by
    obtain ⟨k, hk, _⟩ := (Option.any_eq_true _ _).mp hclause
    rw [isReservedWord, hk]
    rfl
  rw [leadingWord_eq_found.mpr ⟨_, ⟨List.takeWhile_append_dropWhile, hrun, hreserved, hwhere⟩,
    Or.inl hclause, rfl⟩] at h
  cases h

end Nodes

namespace Grammar

variable {r : Recognizer Node} {l : Language Label} {q : Text → Prop}

section Terminals

theorem minds_of_isBlobless (h : r.Finds l) (hl : Phrase.Over (·.isBlobless = true) l) :
    r.Minds Anywhere Anywhere :=
  fun t n rest hn _ =>
    ⟨trivial, ReadsBlobs.of_isBlobless (C := fun _ _ => True) h hl t n rest hn trivial⟩

theorem minds_of_isDivider (h : r.Finds l) (hl : Phrase.Over (·.isDivider = true) l) :
    r.Minds BeginsAfresh Anywhere := by
  intro t n rest hn _
  have hderives := h t n rest hn
  have hformed := hderives.formed n List.mem_cons_self
  have hc := hl _ hderives.labels n.label List.mem_cons_self
  obtain ⟨hcover, _⟩ := Node.tiles_singleton.mp hderives.tiles
  exact ⟨hcover ▸ hformed.self.beginsAfresh hc,
    hformed.blobsAll (Category.isBlobless_of_isDivider hc)⟩

theorem whitespace_minds : whitespace.Minds BeginsAfresh Anywhere :=
  minds_of_isDivider whitespace_finds (.part rfl)

/-- Whitespace in front of a production makes no difference to where words begin. -/
theorem spaced_minds (h : r.Minds BeginsAfresh q) : (Grammar.spaced r).MindsAll BeginsAfresh q :=
  ((whitespace_minds.weaken (fun _ h => h) fun _ _ => trivial).one.optional fun _ h => h).seq
    h.one

theorem spaced_minds_anywhere (h : r.Minds Anywhere q) :
    (Grammar.spaced r).MindsAll Anywhere q :=
  ((whitespace_minds.weaken (fun _ _ => trivial) fun _ _ => trivial).one.optional
    fun _ h => h).seq h.one

end Terminals

section Selectors

variable {C Q : Text → Text → Prop} {role : Category}

/-- The blobs of a literal are as they are read on their own. -/
theorem literal_readsBlobs
    (hblob : ∀ r : Recognizer Node, r.Finds (Phrase.part .hexBlob) → r.ReadsBlobs C Q) :
    literal.ReadsBlobs C Q := by
  have hnumber : number.ReadsBlobs C Q := .of_isBlobless number_finds (.part rfl)
  have hstring : string.ReadsBlobs C Q := .of_isBlobless string_finds (.part rfl)
  exact ((((hblob _ (blobBeyond_finds number)).orElse hnumber).orElse hstring).orElse
    (hblob _ hexBlob_finds)).wrap (by decide)

theorem selector_readsBlobs
    (hblob : ∀ r : Recognizer Node, r.Finds (Phrase.part .hexBlob) → r.ReadsBlobs C Q)
    (hrole : IsRole role) : (selector role).ReadsBlobs C Q := by
  have hname : (Grammar.qualifiedName role).ReadsBlobs C Q := by
    refine .node (itemName_finds.one.seq
      (accessor_finds.one.seq (itemName_finds.orFault _).one).optional) ?_ ?_
    · have hpart : ∀ {c : Category}, c.isBlobless = true →
          Phrase.Over (·.isBlobless = true) (Phrase.part c) :=
        fun hc => Phrase.Over.part (P := (·.isBlobless = true)) hc
      exact (hpart rfl).mul ((hpart rfl).mul (hpart rfl)).maybe
    · rcases hrole with rfl | rfl | rfl <;> decide
  have hmark : placeholder.ReadsBlobs C Q := .of_isBlobless placeholder_finds (.part rfl)
  exact (((hblob _ (blobBeyond_finds itemName)).wrap (by decide)).wrap (by decide)).orElse
    (hname.orElse ((hmark.orElse (literal_readsBlobs hblob)).wrap (by decide)))

theorem selector_spares (hrole : IsRole role) : (selector role).ReadsBlobs Uncut SparesWords :=
  selector_readsBlobs (fun _ h => .of_hexBlob h fun _ hn hc hfree => hn.sparesWords hc hfree) hrole

theorem selectorItem_minds : selectorItem.Minds Anywhere BeginsAfresh :=
  fun t n rest h hrest =>
    ⟨trivial, selector_spares (Or.inr (Or.inr rfl)) t n rest h (Or.inr hrest)⟩

end Selectors

section Collections

/-- Every element of a collection has a comma or the closing delimiter behind it. -/
theorem elements_minds {first next close : Recognizer Node}
    (hfirst : first.Minds Anywhere BeginsAfresh) (hnext : next.Minds Anywhere BeginsAfresh)
    (hclose : close.Minds BeginsAfresh Anywhere) (unclosed : Text → Fault) :
    (elements first next close unclosed).MindsAll Anywhere Anywhere := by
  have hcomma : comma.Minds BeginsAfresh Anywhere := minds_of_isDivider comma_finds (.word rfl)
  have hmore := ((spaced_minds hcomma).seq (spaced_minds_anywhere hnext)).many
  exact (((spaced_minds_anywhere hfirst).seq hmore).seq
    (spaced_minds (hclose.orFault unclosed))).orElse
      ((spaced_minds hclose).weaken (fun _ _ => trivial) fun _ h => h)

theorem arrayLiteral_minds (room : Nat) : (arrayLiteral room).Minds BeginsAfresh Anywhere := by
  cases room with
  | zero => exact refused_minds
  | succ room =>
      have hopen : (delimiter '[' .arrayStart).Minds BeginsAfresh Anywhere :=
        minds_of_isDivider (delimiter_finds rfl fun _ => rfl) (.part rfl)
      have hclose : (delimiter ']' .arrayEnd).Minds BeginsAfresh Anywhere :=
        minds_of_isDivider (delimiter_finds rfl fun _ => rfl) (.part rfl)
      exact (hopen.one.seq (elements_minds selectorItem_minds (selectorItem_minds.orFault _)
        hclose _)).node (by decide)

theorem mapEntry_minds (demand : Demand) : (mapEntry demand).Minds Anywhere BeginsAfresh := by
  have hcolon : mapSeparator.Minds BeginsAfresh Anywhere :=
    minds_of_isDivider mapSeparator_finds (.part rfl)
  exact (((selectorItem_minds.under demand _).one.seq ((spaced_minds hcolon).under demand _)).seq
    (spaced_minds_anywhere (selectorItem_minds.orFault _))).node (by decide)

theorem mapLiteral_minds (room : Nat) : (mapLiteral room).Minds BeginsAfresh Anywhere := by
  cases room with
  | zero => exact refused_minds
  | succ room =>
      have hopen : (delimiter '\x7b' .mapStart).Minds BeginsAfresh Anywhere :=
        minds_of_isDivider (delimiter_finds rfl fun _ => rfl) (.part rfl)
      have hclose : (delimiter '\x7d' .mapEnd).Minds BeginsAfresh Anywhere :=
        minds_of_isDivider (delimiter_finds rfl fun _ => rfl) (.part rfl)
      exact (hopen.one.seq (elements_minds (mapEntry_minds .optional) (mapEntry_minds .mandatory)
        hclose _)).node (by decide)

end Collections

section Commands

theorem plainItem_spares {role : Category} (hrole : IsRole role) (room : Nat) :
    (plainItem room role).ReadsBlobs Uncut SparesWords := by
  have harray : (arrayLiteral room).ReadsBlobs Uncut SparesWords := fun t n rest h _ =>
    (arrayLiteral_minds room t n rest h trivial).2
  have hmap : (mapLiteral room).ReadsBlobs Uncut SparesWords := fun t n rest h _ =>
    (mapLiteral_minds room t n rest h trivial).2
  exact ((harray.orElse hmap).orElse (selector_spares hrole)).orElse
    (.of_isBlobless symbol_finds (.part rfl))

theorem reservedWordSequence_minds : reservedWordSequence.Minds BeginsAfresh Anywhere := by
  have hword : ∀ last, (continuingWord last).Minds Anywhere Anywhere := fun last =>
    minds_of_isBlobless (continuingWord_finds last) (.part rfl)
  exact ((minds_of_isDivider leadingWord_finds (.part rfl)).andThen fun first =>
    MindsAll.repeated (fun last => spaced_minds_anywhere (hword last)) first.spelling).node
      (by decide)

/-- In the list after a table name an item is read only where no keywords are, and elsewhere
only where no command begins. -/
theorem commandItem_cases {room : Nat} {context : NameContext} {t rest : Text} {n : Node}
    (h : commandItem room context t = .found n rest) :
    reservedWordSequence t = .found n rest ∨
      leadingWord t = .absent ∧ plainItem room context.role t = .found n rest := by
  unfold commandItem at h
  split at h
  · rcases orElse_eq_found.mp h with h | ⟨habsent, h⟩
    · exact Or.inl h
    · rcases reservedWordSequence_cases t with ⟨_, hleading⟩ | ⟨⟨m, after, hfound⟩, _⟩
      · exact Or.inr ⟨hleading, h⟩
      · rw [hfound] at habsent
        cases habsent
  · unfold otherThan at h
    split at h
    next => cases h
    next hleading => exact Or.inr ⟨hleading, h⟩
    next => cases h

theorem commandItem_minds (room : Nat) (context : NameContext) :
    (commandItem room context).Minds Anywhere Anywhere := by
  intro t n rest h _
  refine ⟨trivial, ?_⟩
  rcases commandItem_cases h with hwords | ⟨hleading, hplain⟩
  · exact (reservedWordSequence_minds t n rest hwords trivial).2
  · exact plainItem_spares context.isRole_role room t n rest hplain
      (Or.inl (not_beginsClause_of_leadingWord hleading))

theorem command_minds (room : Nat) : (command room).Minds BeginsAfresh Anywhere := by
  induction room with
  | zero => exact refused_minds
  | succ room ih =>
      have hnested := (spaced_minds_anywhere (ih.weaken (fun _ _ => trivial) fun _ h => h)).optional
        fun _ h => h
      exact (reservedWordSequence_minds.andThen fun words =>
        (MindsAll.repeated (fun context => spaced_minds_anywhere (commandItem_minds room context))
          (NameContext.ofKeywords (keywordsOf words))).seq hnested).node (by decide)

end Commands

section Conditions

theorem conditionItem_minds (demand : Demand) :
    (conditionItemUnder demand).Minds Anywhere BeginsAfresh := by
  have hcomparison : (operator.orElse symbol).Minds BeginsAfresh Anywhere :=
    (minds_of_isDivider operator_finds (.part rfl)).orElse
      (minds_of_isDivider symbol_finds (.part rfl))
  exact (((selectorItem_minds.under demand _).one.seq (spaced_minds (hcomparison.orFault _))).seq
    (spaced_minds_anywhere (selectorItem_minds.orFault _))).node (by decide)

theorem conditionChain_minds (demand : Demand) :
    (conditionChain demand).Minds Anywhere BeginsAfresh := by
  have hjoin : conjunction.Minds BeginsAfresh Anywhere :=
    minds_of_isDivider conjunction_finds (.word rfl)
  have hgap : whitespace.Minds Anywhere Anywhere :=
    whitespace_minds.weaken (fun _ _ => trivial) fun _ h => h
  exact ((conditionItem_minds demand).one.seq
    (((spaced_minds hjoin).seq (hgap.orFault _).one).seq
      ((conditionItem_minds .optional).orFault _).one).many).node (by decide)

theorem condition_minds : condition.Minds BeginsAfresh BeginsAfresh := by
  have hwhere : whereKeyword.Minds BeginsAfresh Anywhere :=
    minds_of_isDivider whereKeyword_finds (.part rfl)
  have hgap : whitespace.Minds Anywhere Anywhere :=
    whitespace_minds.weaken (fun _ _ => trivial) fun _ h => h
  exact ((hwhere.one.seq (hgap.orFault _).one).seq (conditionChain_minds .mandatory).one).node
    (by decide)

end Conditions

theorem statementParts_minds (depth : Nat) :
    (statementParts depth).MindsAll BeginsAfresh BeginsAfresh := by
  have hgap : (Recognizer.optional (one whitespace)).MindsAll BeginsAfresh BeginsAfresh :=
    (whitespace_minds.weaken (fun _ h => h) fun _ _ => trivial).one.optional fun _ h => h
  have hcommand : (command depth).Minds BeginsAfresh BeginsAfresh :=
    (command_minds depth).weaken (fun _ h => h) fun _ _ => trivial
  have hend : terminator.Minds BeginsAfresh BeginsAfresh :=
    (minds_of_isDivider terminator_finds (.part rfl)).weaken (fun _ h => h) fun _ _ => trivial
  have hclause := (spaced_minds condition_minds).seq
    ((spaced_minds hcommand).optional fun _ h => h)
  exact (((hgap.seq (hcommand.orFault _).one).seq (hclause.optional fun _ h => h)).seq
    ((spaced_minds hend).optional fun _ h => h)).seq hgap

end Grammar

/-- All blobs of a source spare clause words. -/
theorem sparesWords_of_parse {depth : Nat} {q : Text} {root : Node}
    (h : parse depth q = .ok root) : root.BlobsAll SparesWords := by
  obtain ⟨_, ns, hns, rfl⟩ := statement_eq_found.mp (parse_eq_ok.mp h)
  have hend : BeginsAfresh [] := Or.inl nofun
  refine Node.everywhere_iff.mpr ⟨nofun, ?_⟩
  exact (statementParts_minds depth q ns [] hns hend).2

end QueryTree
