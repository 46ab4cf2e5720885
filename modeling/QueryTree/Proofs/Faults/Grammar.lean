import QueryTree.Proofs.Derivation.Ahead
import QueryTree.Proofs.Faults.Placed

/-!
# Where the faults of the grammar are

Every production stays within the text that it is given. The terminals never break off,
apart from the two kinds of quotation, and a collection or a command takes a character of
its own before it hands on one level less.
-/

namespace QueryTree.Grammar

open Recognizer

variable {room : Nat} {c : Category}

section Terminals

theorem run_places (p : Char → Bool) : (run c p).Places room := by
  intro t
  unfold run
  split
  · exact .absent
  · exact .found _ (List.dropWhile_suffix p)

theorem single_places (p : Char → Bool) : (single c p).Places room := by
  intro t
  cases t with
  | nil => exact .absent
  | cons x t =>
      rw [single]
      split
      · exact .found _ (List.suffix_cons x t)
      · exact .absent

theorem word_places (accept : Text → Bool) : (word c accept).Places room := by
  intro t
  rw [word_eq]
  split
  · exact .found _ (List.dropWhile_suffix _)
  · exact .absent

theorem oneOf_places (words : List Text) : (oneOf words c).Places room :=
  word_places _

theorem hexBlob_places : hexBlob.Places room := by
  intro t
  unfold hexBlob
  split
  · exact run_places _ t
  · exact .absent

theorem operator_places : operator.Places room :=
  .of_finds operator_finds fun t f => by
    unfold operator
    split <;> simp

theorem inputCharacters_places : inputCharacters.Places room := by
  intro t
  have hsuffix : (splitQuoted t).2 <:+ t := ⟨(splitQuoted t).1, splitQuoted_append t⟩
  unfold inputCharacters
  split
  · exact .absent
  next body rest _ hsplit =>
    rw [hsplit] at hsuffix
    exact .found _ hsuffix

/-- A string that is not closed goes on to the end of the text. -/
theorem string_places : string.Places room := by
  intro t
  by_cases ht : t.head? = some '\''
  · obtain ⟨t, rfl⟩ := List.head?_eq_some_iff.mp ht
    obtain ⟨s, hs, hend | ⟨rest, hend, hrest⟩⟩ := splitQuoted_spec t
    · rw [string_of_splitQuoted_nil hend]
      exact .broken ⟨List.nil_suffix, Or.inl ⟨rfl, rfl⟩⟩
    · have hcover : '\'' :: t = Text.quoted s ++ rest := by
        rw [Text.quoted_append, ← hend, ← hs, splitQuoted_append]
      rw [hcover, string_quoted s hrest]
      exact .found _ (List.suffix_append _ rest)
  · rw [string_eq_absent ht]
    exact .absent

theorem itemNameCaseSensitive_places : itemNameCaseSensitive.Places room := by
  intro t
  unfold itemNameCaseSensitive itemNameCaseSensitiveUnder
  split
  next t =>
    split
    next => exact .broken ⟨List.suffix_rfl, rfl⟩
    next quote rest hrest =>
      have hsuffix : rest <:+ '"' :: t :=
        ((List.suffix_cons quote rest).trans (hrest ▸ List.dropWhile_suffix _)).trans
          (List.suffix_cons '"' t)
      dsimp only
      split
      · exact .found _ hsuffix
      · exact .absent
  next => exact .absent

theorem spaced_places {r : Recognizer Node} (h : r.Places room) :
    (Grammar.spaced r).Places room :=
  ((run_places _).one.optional).seq h.one

/-- What stands in place of a closing delimiter is not whitespace, which has been read. -/
theorem closing_places (x : Char) (c : Category) {collection : Category}
    (hc : collection = .arrayLiteral ∨ collection = .mapLiteral) :
    (Grammar.spaced ((delimiter x c).orFault fun t =>
      .unterminated collection x (.start t))).Places room := by
  intro t
  rw [spaced_eq]
  have hgap : t.dropWhile Text.isLayout <:+ t := List.dropWhile_suffix _
  have hlayout : ∀ y ∈ (t.dropWhile Text.isLayout).head?, Text.isLayout y = false := by
    intro y hy
    have := List.head?_dropWhile_not Text.isLayout t
    rw [Option.mem_def.mp hy] at this
    simpa using this
  generalize t.dropWhile Text.isLayout = u at hgap hlayout
  refine Reading.Placed.of_suffix (u := u) ?_ hgap
  refine Reading.Placed.map ?_
  by_cases hu : u.head? = some x
  · rw [orFault, orElse]
    obtain ⟨u, rfl⟩ := List.head?_eq_some_iff.mp hu
    rw [delimiter_cons]
    exact .found _ (List.suffix_cons x u)
  · rw [orFault, orElse_of_absent (delimiter_eq_absent hu)]
    refine .broken ⟨List.suffix_rfl, Or.inr ⟨hc, ?_⟩⟩
    intro y hy
    exact ⟨fun hyx => hu (hyx ▸ hy), hlayout y hy⟩

end Terminals

section Selectors

theorem itemName_places : itemName.Places room :=
  (itemNameCaseSensitive_places.orElse (word_places _)).wrap _

theorem blobBeyond_places {r : Recognizer Node} (h : r.Places room) :
    (blobBeyond r).Places room := by
  intro t
  refine (h t).bind fun n rest _ _ => ?_
  exact hexBlob_places.filter _ t

theorem literal_places : literal.Places room :=
  ((((blobBeyond_places (run_places _)).orElse (run_places _)).orElse string_places).orElse
    hexBlob_places).wrap _

theorem selector_places (role : Category) : (selector role).Places room := by
  have hblob : Places room (wrap .selectorItem (wrap .literal (blobBeyond itemName))) :=
    ((blobBeyond_places itemName_places).wrap _).wrap _
  have hname : (qualifiedName role).Places room :=
    (itemName_places.one.seq ((single_places _).one.seq
      (itemName_places.required .itemName).one).optional).node role
  exact hblob.orElse (hname.orElse (((single_places _).orElse literal_places).wrap .selectorItem))

end Selectors

section Collections

variable {first next : Recognizer Node}

theorem elements_places (hfirst : first.Places room) (hnext : next.Places room) (x : Char)
    (c : Category) {collection : Category}
    (hc : collection = .arrayLiteral ∨ collection = .mapLiteral) :
    (elements first next (delimiter x c) fun t =>
      .unterminated collection x (.start t)).Places room :=
  (((spaced_places hfirst).seq ((spaced_places (single_places _)).seq
    (spaced_places hnext)).many).seq (closing_places x c hc)).orElse
    (spaced_places (single_places _))

theorem arrayLiteral_places (room : Nat) : (arrayLiteral room).Places room := by
  cases room with
  | zero =>
      refine (single_places _).refused fun t n rest h => ?_
      obtain ⟨x, hx, rfl, rfl⟩ := single_eq_found.mp h
      exact Or.inl (congrArg some (beq_iff_eq.mp hx))
  | succ room =>
      exact ((single_places _).one.seq (elements_places (selector_places _)
        ((selector_places _).required _) ']' .arrayEnd (Or.inl rfl))).node _

theorem mapEntry_places (demand : Demand) : (mapEntry demand).Places room :=
  ((((selector_places _).under demand _).one.seq
    ((spaced_places (single_places _)).under demand _)).seq
    (spaced_places ((selector_places _).required _))).node _

theorem mapLiteral_places (room : Nat) : (mapLiteral room).Places room := by
  cases room with
  | zero =>
      refine (single_places _).refused fun t n rest h => ?_
      obtain ⟨x, hx, rfl, rfl⟩ := single_eq_found.mp h
      exact Or.inr (Or.inl (congrArg some (beq_iff_eq.mp hx)))
  | succ room =>
      exact ((single_places _).one.seq (elements_places (mapEntry_places .optional)
        (mapEntry_places .mandatory) '\x7d' .mapEnd (Or.inr rfl))).node _

end Collections

section Commands

theorem leadingWord_places : leadingWord.Places room :=
  (word_places _).filter _

theorem continuingWord_places (last : Text) : (continuingWord last).Places room :=
  ((word_places _).filter _).orElse leadingWord_places

theorem reservedWordSequence_places : reservedWordSequence.Places room :=
  (leadingWord_places.andThen fun _ =>
    .repeated (fun last => spaced_places (continuingWord_places last)) _).node _

/-- A run of keywords begins with a keyword. -/
theorem beginsLevel_of_reservedWordSequence {t rest : Text} {n : Node}
    (h : reservedWordSequence t = .found n rest) : Text.BeginsLevel t := by
  obtain ⟨ns, middle, hns, _⟩ := Reading.bind_eq_found.mp h
  obtain ⟨first, after, hfirst, _⟩ := Reading.bind_eq_found.mp hns
  have hderives := leadingWord_finds t first after hfirst
  obtain ⟨hcover, hrun⟩ := isRun_of_reservedWord hderives
  have hspells := (hderives.formed first List.mem_cons_self).self.spells
  rw [Phrase.label_mem_part.mp hderives.labels] at hspells
  refine Or.inr (Or.inr ?_)
  rw [← hcover, hrun.takeWhile_append]
  exact hspells.2

theorem commandItem_places (room : Nat) (context : NameContext) :
    (commandItem room context).Places room := by
  have hplain : (plainItem room context.role).Places room :=
    (((arrayLiteral_places room).orElse (mapLiteral_places room)).orElse
      (selector_places _)).orElse (single_places _)
  unfold commandItem
  split
  · exact reservedWordSequence_places.orElse hplain
  · intro t
    have hword : (leadingWord t).Placed room t := leadingWord_places t
    unfold otherThan
    generalize leadingWord t = x at hword ⊢
    cases hword with
    | found n h => exact .absent
    | absent => exact hplain t
    | broken h => exact .broken h

theorem command_places (room : Nat) : (command room).Places room := by
  induction room with
  | zero =>
      exact reservedWordSequence_places.refused fun _ _ _ => beginsLevel_of_reservedWordSequence
  | succ room ih =>
      refine (reservedWordSequence_places.andThen_shorter reservedWordSequence_finds
        (Phrase.nil_notMem_part _) fun words => ?_).node _
      exact (Places.repeated (fun context => spaced_places (commandItem_places room context))
        _).seq (spaced_places ih).optional

end Commands

section Statements

theorem conditionItem_places (demand : Demand) : (conditionItemUnder demand).Places room :=
  ((((selector_places _).under demand _).one.seq
    (spaced_places ((operator_places.orElse (single_places _)).required _))).seq
    (spaced_places ((selector_places _).required _))).node _

theorem conditionChain_places (demand : Demand) : (conditionChain demand).Places room := by
  have hspace : Places room (Recognizer.required .whitespace whitespace) :=
    (run_places _).required _
  exact ((conditionItem_places demand).one.seq
    (((spaced_places (oneOf_places _)).seq hspace.one).seq
      ((conditionItem_places .optional).required _).one).many).node _

theorem condition_places : condition.Places room := by
  have hspace : Places room (Recognizer.required .whitespace whitespace) :=
    (run_places _).required _
  exact (((oneOf_places _).one.seq hspace.one).seq (conditionChain_places .mandatory).one).node _

theorem statementParts_places (depth : Nat) : (statementParts depth).Places depth := by
  have hspace : Places depth (Recognizer.optional whitespace.one) := (run_places _).one.optional
  have hcommand := command_places depth
  have hcondition : Places depth (Recognizer.optional ((Grammar.spaced condition).seq
      (Recognizer.optional (Grammar.spaced (command depth))))) :=
    ((spaced_places condition_places).seq (spaced_places hcommand).optional).optional
  exact (((hspace.seq (hcommand.required _).one).seq hcondition).seq
    (spaced_places (single_places _)).optional).seq hspace

/-- The faults of a statement point into it. -/
theorem statement_places (depth : Nat) : (statement depth).Places depth := by
  refine fun t => (statementParts_places depth t).bind_rest fun parts rest => ?_
  split
  next => exact .found _ List.suffix_rfl
  next hrest => exact .broken ⟨List.suffix_rfl, fun h => hrest (List.isEmpty_iff.mpr h)⟩

end Statements

end QueryTree.Grammar
