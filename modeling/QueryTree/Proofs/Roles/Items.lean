import QueryTree.Proofs.Nesting.Levels
import QueryTree.Proofs.Derivation.Ahead
import QueryTree.Proofs.Roles.Context

/-!
# The items of a command

An item is a name, which gets the role that the context asks for, or a placeholder or a
literal, or something that no role is given to. The items of a command are read one after the
other, each of them in the context that the items before it leave.
-/

namespace QueryTree

open Recognizer Grammar Roles

namespace Node

/-- Whether a node is built from a name. -/
def IsNamed (n : Node) : Prop :=
  ∃ k, n.children.head? = some k ∧ k.category = .itemName

/-- Whether a node is built from a placeholder or a literal. -/
def IsValued (n : Node) : Prop :=
  ∃ k ∈ n.children, k.category = .placeholderInject ∨ k.category = .literal

end Node

open Node

section Items

variable {role : Category} {room : Nat} {context : NameContext} {t rest : Text} {n : Node}

/-- The categories of the items that no role is given to. -/
def rolelessCategories : List Category :=
  [.reservedWordSequence, .arrayLiteral, .mapLiteral, .symbol]

/-- What may be read as an item: a name in its role, a placeholder or a literal, or an item
without a role. -/
inductive ReadAs (role : Category) (n : Node) : Prop where
  | name (category : n.category = role) (named : n.IsNamed) (unvalued : ¬n.IsValued)
  | value (category : n.category = .selectorItem) (unnamed : ¬n.IsNamed) (valued : n.IsValued)
  | other (category : n.category ∈ rolelessCategories) (unnamed : ¬n.IsNamed)
      (unvalued : ¬n.IsValued)

/-- The links of an item do not matter. -/
theorem ReadAs.linked (h : ReadAs role n) (p q : Option Nat) : ReadAs role (n.linked p q) := by
  cases h with
  | name hc hnamed hunvalued => exact .name hc hnamed hunvalued
  | value hc hunnamed hvalued => exact .value hc hunnamed hvalued
  | other hc hunnamed hunvalued => exact .other hc hunnamed hunvalued

/-- A qualified name begins with a name and has no placeholder or literal in it. -/
theorem named_of_labels (h : n.children.map label ∈ Phrase.qualifiedName) :
    n.IsNamed ∧ ¬n.IsValued := by
  constructor
  · obtain ⟨_, ⟨s, rfl⟩, b, _, hlabels⟩ := h
    have hhead : (n.children.map label).head? = some (.itemName, s) := by
      rw [← hlabels]
      rfl
    rw [List.head?_map] at hhead
    obtain ⟨k, hk, hlabel⟩ := Option.map_eq_some_iff.mp hhead
    exact ⟨k, hk, congrArg Prod.fst hlabel⟩
  · have hover : Phrase.Over (fun c => c = .itemName ∨ c = .accessor) Phrase.qualifiedName :=
      (Phrase.Over.part (Or.inl rfl)).mul
        ((Phrase.Over.part (Or.inr rfl)).mul (Phrase.Over.part (Or.inl rfl))).maybe
    rintro ⟨k, hk, hvalue⟩
    have hcategory : k.category = .itemName ∨ k.category = .accessor :=
      hover _ h k.label (List.mem_map_of_mem hk)
    rcases hcategory with hc | hc <;> rcases hvalue with hv | hv <;> cases hc.symm.trans hv

/-- An item that is no selector has no role and nothing that could get one. -/
theorem ReadAs.of_formed (h : n.Formed) (hc : n.category ∈ rolelessCategories) :
    ReadAs role n := by
  have hall : ∀ c ∈ rolelessCategories,
      ∀ d ∈ c.partCategories, d ≠ .itemName ∧ d ≠ .placeholderInject ∧ d ≠ .literal := by
    decide
  refine .other hc ?_ ?_
  · rintro ⟨k, hk, hname⟩
    exact (hall _ hc _ (h.mem_partCategories (List.mem_of_mem_head? hk))).1 hname
  · rintro ⟨k, hk, hmark | hliteral⟩
    · exact (hall _ hc _ (h.mem_partCategories hk)).2.1 hmark
    · exact (hall _ hc _ (h.mem_partCategories hk)).2.2 hliteral

/-- A placeholder or a literal is a plain selector item. -/
theorem readAs_of_wrap {r : Recognizer Node}
    (hr : r.Finds (Phrase.part .placeholderInject + Phrase.part .literal))
    (h : wrap .selectorItem r t = .found n rest) : ReadAs role n := by
  obtain ⟨ns, hns, rfl⟩ := node_eq_found.mp h
  obtain ⟨k, hk, rfl⟩ := Reading.map_eq_found.mp hns
  have hcategory : k.category = .placeholderInject ∨ k.category = .literal :=
    (hr _ _ _ hk).labels.imp Phrase.label_mem_part.mp Phrase.label_mem_part.mp
  refine .value rfl ?_ ⟨_, List.mem_singleton_self _, hcategory⟩
  rintro ⟨m, hm, hname⟩
  obtain rfl := Option.some.inj hm
  rcases hcategory with hc | hc <;> cases hc.symm.trans hname

theorem readAs_of_selector (h : selector role t = .found n rest) : ReadAs role n := by
  have hblob : (wrap .literal (blobBeyond itemName)).Finds (Phrase.part .literal) :=
    ((blobBeyond_finds itemName).mono le_sup_right).wrap rfl fun _ _ => trivial
  rcases orElse_eq_found.mp h with h | ⟨_, h⟩
  · exact readAs_of_wrap (hblob.mono le_sup_right) h
  · rcases orElse_eq_found.mp h with h | ⟨_, h⟩
    · have hname : ((one itemName).seq (optional ((one accessor).seq
          (one (itemName.required .itemName))))).Yields Phrase.qualifiedName :=
        itemName_finds.one.seq (accessor_finds.one.seq (itemName_finds.orFault _).one).optional
      obtain ⟨ns, hns, rfl⟩ := node_eq_found.mp h
      obtain ⟨hnamed, hunvalued⟩ := named_of_labels (n := Node.branch role (Node.chain ns) rest)
        (hname _ _ _ hns).chain.labels
      exact .name rfl hnamed hunvalued
    · exact readAs_of_wrap (placeholder_finds.orElse literal_finds) h

theorem readAs_of_finds {r : Recognizer Node} {c : Category} (hr : r.Finds (Phrase.part c))
    (hc : c ∈ rolelessCategories) (h : r t = .found n rest) : ReadAs role n := by
  have hn := hr t n rest h
  have hcategory : n.category = c := Phrase.label_mem_part.mp hn.labels
  exact .of_formed (hn.formed n List.mem_cons_self).self (hcategory ▸ hc)

theorem readAs_of_plainItem (h : plainItem room role t = .found n rest) : ReadAs role n := by
  rcases orElse_eq_found.mp h with h | ⟨_, h⟩
  · rcases orElse_eq_found.mp h with h | ⟨_, h⟩
    · rcases orElse_eq_found.mp h with h | ⟨_, h⟩
      · exact readAs_of_finds (arrayLiteral_finds room) (by decide) h
      · exact readAs_of_finds (mapLiteral_finds room) (by decide) h
    · exact readAs_of_selector h
  · exact readAs_of_finds symbol_finds (by decide) h

/-- What is read as an item gets its role, if any, from the context. -/
theorem readAs_of_commandItem (h : commandItem room context t = .found n rest) :
    ReadAs context.role n := by
  unfold commandItem at h
  split at h
  · rcases orElse_eq_found.mp h with h | ⟨_, h⟩
    · exact readAs_of_finds reservedWordSequence_finds (by decide) h
    · exact readAs_of_plainItem h
  · unfold otherThan at h
    split at h
    next => cases h
    next => exact readAs_of_plainItem h
    next => cases h

/-- An item is neither whitespace nor a command nor a statement. -/
theorem ReadAs.category_ne (h : ReadAs context.role n) :
    n.category ≠ .whitespace ∧ n.category ≠ .command ∧ n.category ≠ .statement := by
  cases h with
  | name hc _ _ =>
      rcases context.isRole_role with hrole | hrole | hrole <;> rw [hc, hrole] <;> simp
  | value hc _ _ => simp [hc]
  | other hc _ _ =>
      have hall : ∀ c ∈ rolelessCategories,
          c ≠ .whitespace ∧ c ≠ .command ∧ c ≠ .statement := by decide
      exact hall _ hc

/-- Only where the context asks for a table does an item name one. -/
theorem ReadAs.table (h : ReadAs context.role n) (hn : n.category = .tableName) :
    context.table = true := by
  cases h with
  | name hc _ _ =>
      by_contra htable
      have hrole : context.role ≠ .tableName := by
        rw [NameContext.role, if_neg htable]
        split <;> simp
      exact hrole (hc.symm.trans hn)
  | value hc _ _ => cases hc.symm.trans hn
  | other hc _ _ =>
      rw [hn] at hc
      exact absurd hc (by decide)

end Items

section Run

variable {room bound : Nat} {context : NameContext} {t rest : Text} {n x : Node}
variable {ns before after : List Node} {words : List Text} {labels : List Label}

/-- Whether a part of a command behind its keywords is one of its items. -/
def Node.isItem (n : Node) : Bool :=
  n.category ≠ .whitespace && n.category ≠ .command

theorem filter_isItem_gapNodes (t : Text) : (gapNodes t).filter Node.isItem = [] := by
  refine List.filter_eq_nil_iff.mpr fun m hm => ?_
  simp [Node.isItem, category_of_mem_gapNodes hm]

/-- Each item of a run is read in a context that tracks the items before it. -/
theorem tracks_of_repeatUpTo (htracks : Tracks words labels context)
    (h : repeatUpTo (fun context => Grammar.spaced (commandItem room context))
      NameContext.after bound context t = .found ns rest)
    (hitems : ns.filter Node.isItem = before ++ x :: after) :
    ∃ context', Tracks words (labels ++ before.map label) context' ∧
      ReadAs context'.role x := by
  induction bound generalizing context t ns labels before with
  | zero =>
      obtain ⟨rfl, rfl⟩ := Reading.found.inj h
      simp at hitems
  | succ bound ih =>
      unfold repeatUpTo at h
      split at h
      next part middle hpart =>
        obtain ⟨more, hmore, rfl⟩ := Reading.map_eq_found.mp h
        rw [spaced_eq] at hpart
        obtain ⟨n, hn, rfl⟩ := Reading.map_eq_found.mp hpart
        have hread := readAs_of_commandItem hn
        have hitem : n.isItem = true := by
          simp [Node.isItem, hread.category_ne]
        rw [List.foldl_append, foldl_after_gapNodes] at hmore
        rw [List.filter_append, List.filter_append, filter_isItem_gapNodes, List.nil_append,
          List.filter_cons_of_pos hitem, List.filter_nil, List.singleton_append] at hitems
        -- Either this round reads the item that is asked for, or it reads one before it, and
        -- then the context goes on to track the items with this one.
        cases before with
        | nil =>
            obtain ⟨rfl, _⟩ := List.cons.inj hitems
            rw [List.map_nil, List.append_nil]
            exact ⟨context, htracks, hread⟩
        | cons y before =>
            obtain ⟨rfl, hmoreItems⟩ := List.cons.inj hitems
            have hnext := htracks.after hread.category_ne.1 fun hname =>
              (htracks.table.mp (hread.table hname)).1
            rw [List.map_cons, List.append_cons]
            exact ih hnext hmore hmoreItems
      next =>
        obtain ⟨rfl, rfl⟩ := Reading.found.inj h
        simp at hitems
      next => cases h

end Run

end QueryTree
