import QueryTree.Proofs.Derivation.Statement
import QueryTree.Proofs.Links.Neighbours

/-!
# How the grammar links

Every production is built from leaves and from productions that link their parts as they
come. A part has no links before it is added, whether it was read on its own, wrapped or
left over from an alternative, so nothing but its neighbours is ever written into it.
-/

namespace QueryTree

open Recognizer Grammar

/-- The nodes that productions build: leaves, and nodes whose parts were linked as they
came. -/
inductive Node.Built : Node → Prop
  | leaf (c : Category) (w rest : Text) : Built (Node.leaf c w rest)
  | branch (c : Category) {parts : List Node} (rest : Text) (h : ∀ n ∈ parts, Built n) :
      Built (Node.branch c (Node.linkEach parts) rest)

namespace Node.Built

variable {n : Node}

/-- A node has no links until it becomes a part of a larger one. -/
theorem isUnlinked (h : n.Built) : n.IsUnlinked := by
  cases h with
  | leaf => exact ⟨rfl, rfl⟩
  | branch => exact ⟨rfl, rfl⟩

/-- Below a node all children are linked to their neighbours. -/
theorem everywhere (h : n.Built) : n.Everywhere LinksNeighbours := by
  induction h with
  | leaf c w rest =>
      refine everywhere_iff.mpr ⟨?_, fun _ hm => nomatch hm⟩
      intro i child hchild
      cases hchild
  | branch c rest hparts ih =>
      rw [linkEach_eq_chain fun n hn => (hparts n hn).isUnlinked]
      refine everywhere_iff.mpr ⟨linksNeighbours_branch c _ rest, fun m hm => ?_⟩
      obtain ⟨k, hk, p, q, rfl⟩ := mem_chain hm
      exact (ih k hk).linked p q id

end Node.Built

open Node

namespace Recognizer

variable {r : Recognizer Node} {u : Recognizer (List Node)}

/-- The parts of a production may as well be linked one at a time. -/
theorem YieldsOnly.node_built (h : u.YieldsOnly Built) (c : Category) :
    (node c u).FindsOnly Built := by
  intro t n rest hn
  obtain ⟨parts, hparts, rfl⟩ := node_eq_found.mp hn
  have hbuilt := h t parts rest hparts
  rw [← linkEach_eq_chain fun n hn => (hbuilt n hn).isUnlinked]
  exact .branch c rest hbuilt

theorem FindsOnly.wrap_built (h : r.FindsOnly Built) (c : Category) :
    (wrap c r).FindsOnly Built :=
  h.one.node_built c

end Recognizer

namespace Grammar

section Terminals

theorem run_built (c : Category) (p : Char → Bool) : (run c p).FindsOnly Built := by
  intro t n rest h
  obtain ⟨_, rfl, _⟩ := run_eq_found.mp h
  exact .leaf c _ _

theorem single_built (c : Category) (p : Char → Bool) : (single c p).FindsOnly Built := by
  intro t n rest h
  obtain ⟨x, _, _, rfl⟩ := single_eq_found.mp h
  exact .leaf c _ _

theorem word_built (c : Category) (accept : Text → Bool) : (word c accept).FindsOnly Built := by
  intro t n rest h
  obtain ⟨_, _, rfl, _⟩ := word_eq_found.mp h
  exact .leaf c _ _

theorem oneOf_built (words : List Text) (c : Category) : (oneOf words c).FindsOnly Built :=
  word_built c _

theorem whitespace_built : whitespace.FindsOnly Built :=
  run_built _ _

theorem hexBlob_built : hexBlob.FindsOnly Built := by
  intro t n rest h
  unfold hexBlob at h
  split at h
  · exact run_built _ _ t n rest h
  · cases h

theorem operator_built : operator.FindsOnly Built := by
  intro t n rest h
  obtain ⟨w, _, _, rfl⟩ := operator_eq_found h
  exact .leaf .operator w rest

theorem inputCharacters_built : inputCharacters.FindsOnly Built := by
  intro t n rest h
  unfold inputCharacters at h
  split at h
  · cases h
  · obtain ⟨rfl, rfl⟩ := Reading.found.inj h
    exact .leaf _ _ _

theorem string_built : string.FindsOnly Built :=
  (((single_built _ _).one.seq inputCharacters_built.one.optional).seq
    ((single_built _ _).orFault _).one).node_built _

theorem spaced_built {r : Recognizer Node} (h : r.FindsOnly Built) :
    (Grammar.spaced r).YieldsOnly Built :=
  whitespace_built.one.optional.seq h.one

end Terminals

section Selectors

theorem itemNameCaseSensitive_built : itemNameCaseSensitive.FindsOnly Built := by
  intro t n rest h
  unfold itemNameCaseSensitive itemNameCaseSensitiveUnder at h
  split at h
  · split at h
    · cases h
    · dsimp only at h
      split at h
      · obtain ⟨rfl, rfl⟩ := Reading.found.inj h
        exact .leaf _ _ _
      · cases h
  · cases h

theorem itemName_built : itemName.FindsOnly Built :=
  (itemNameCaseSensitive_built.orElse (word_built _ _)).wrap_built _

theorem blobBeyond_built (r : Recognizer Node) : (blobBeyond r).FindsOnly Built := by
  intro t n rest h
  obtain ⟨m, _, _, h⟩ := Reading.bind_eq_found.mp h
  exact hexBlob_built.filter _ t n rest h

theorem literal_built : literal.FindsOnly Built :=
  ((((blobBeyond_built _).orElse (run_built _ _)).orElse string_built).orElse
    hexBlob_built).wrap_built _

theorem selector_built (role : Category) : (selector role).FindsOnly Built := by
  have hname : (qualifiedName role).FindsOnly Built :=
    (itemName_built.one.seq ((single_built _ _).one.seq
      (itemName_built.orFault _).one).optional).node_built role
  exact (((blobBeyond_built _).wrap_built _).wrap_built _).orElse
    (hname.orElse (((single_built _ _).orElse literal_built).wrap_built _))

end Selectors

section Collections

variable {first next close : Recognizer Node}

theorem elements_built (hfirst : first.FindsOnly Built) (hnext : next.FindsOnly Built)
    (hclose : close.FindsOnly Built) (unclosed : Text → Fault) :
    (elements first next close unclosed).YieldsOnly Built :=
  (((spaced_built hfirst).seq ((spaced_built (single_built _ _)).seq
    (spaced_built hnext)).many).seq (spaced_built (hclose.orFault _))).orElse (spaced_built hclose)

theorem arrayLiteral_built (room : Nat) : (arrayLiteral room).FindsOnly Built := by
  cases room with
  | zero => exact refused_findsOnly
  | succ room =>
      exact ((single_built _ _).one.seq (elements_built (selector_built _)
        ((selector_built _).orFault _) (single_built _ _) _)).node_built _

theorem mapEntry_built (demand : Demand) : (mapEntry demand).FindsOnly Built :=
  ((((selector_built _).under demand _).one.seq
    ((spaced_built (single_built _ _)).under demand _)).seq
    (spaced_built ((selector_built _).orFault _))).node_built _

theorem mapLiteral_built (room : Nat) : (mapLiteral room).FindsOnly Built := by
  cases room with
  | zero => exact refused_findsOnly
  | succ room =>
      exact ((single_built _ _).one.seq (elements_built (mapEntry_built .optional)
        (mapEntry_built .mandatory) (single_built _ _) _)).node_built _

end Collections

section Commands

theorem leadingWord_built : leadingWord.FindsOnly Built :=
  (word_built _ _).filter _

theorem continuingWord_built (last : Text) : (continuingWord last).FindsOnly Built :=
  ((word_built _ _).filter _).orElse leadingWord_built

theorem reservedWordSequence_built : reservedWordSequence.FindsOnly Built :=
  (leadingWord_built.andThen fun _ =>
    .repeated fun last => spaced_built (continuingWord_built last)).node_built _

theorem commandItem_built (room : Nat) (context : NameContext) :
    (commandItem room context).FindsOnly Built := by
  have hplain : (plainItem room context.role).FindsOnly Built :=
    (((arrayLiteral_built room).orElse (mapLiteral_built room)).orElse
      (selector_built _)).orElse (single_built _ _)
  unfold commandItem
  split
  · exact reservedWordSequence_built.orElse hplain
  · intro t n rest h
    unfold otherThan at h
    split at h
    · cases h
    · exact hplain t n rest h
    · cases h

theorem command_built (room : Nat) : (command room).FindsOnly Built := by
  induction room with
  | zero => exact refused_findsOnly
  | succ room ih =>
      exact (reservedWordSequence_built.andThen fun words =>
        (YieldsOnly.repeated fun context => spaced_built (commandItem_built room context)).seq
          (spaced_built ih).optional).node_built _

end Commands

section Statements

theorem conditionItem_built (demand : Demand) : (conditionItemUnder demand).FindsOnly Built :=
  ((((selector_built _).under demand _).one.seq
    (spaced_built ((operator_built.orElse (single_built _ _)).orFault _))).seq
    (spaced_built ((selector_built _).orFault _))).node_built _

theorem conditionChain_built (demand : Demand) : (conditionChain demand).FindsOnly Built :=
  ((conditionItem_built demand).one.seq
    (((spaced_built (oneOf_built _ _)).seq (whitespace_built.orFault _).one).seq
      ((conditionItem_built .optional).orFault _).one).many).node_built _

theorem condition_built : condition.FindsOnly Built :=
  (((oneOf_built _ _).one.seq (whitespace_built.orFault _).one).seq
    (conditionChain_built .mandatory).one).node_built _

theorem statementParts_built (depth : Nat) : (statementParts depth).YieldsOnly Built :=
  (((whitespace_built.one.optional.seq ((command_built depth).orFault _).one).seq
      ((spaced_built condition_built).seq
        (spaced_built (command_built depth)).optional).optional).seq
      (spaced_built (single_built _ _)).optional).seq whitespace_built.one.optional

end Statements

end Grammar

end QueryTree
