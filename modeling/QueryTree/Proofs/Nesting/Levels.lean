import QueryTree.Proofs.Derivation.Statement

/-!
# Nesting and levels

The nesting of a tree is the greatest number of commands and collections on a path from
the root to a leaf. The levels of a tree are counted in the same way, but a bracket or a
brace that a command has as a plain symbol counts as well. Both are instances of one
count, which is told of every node on the path what it is and what it is a part of.
-/

namespace QueryTree

/-- The categories of the parts that the nodes of a category may have. -/
def Category.partCategories : Category → List Category
  | .statement => [.whitespace, .command, .condition, .terminator]
  | .command =>
    [.whitespace, .reservedWordSequence, .arrayLiteral, .mapLiteral, .selectorItem,
      .fieldName, .tableName, .symbol, .command]
  | .reservedWordSequence => [.whitespace, .reservedWord]
  | .selectorItem => [.itemName, .accessor, .placeholderInject, .literal]
  | .fieldName | .tableName => [.itemName, .accessor]
  | .itemName => [.itemNameCaseSensitive, .itemNameCaseInsensitive]
  | .literal => [.number, .string, .hexBlob]
  | .string => [.quote, .inputCharacters]
  | .arrayLiteral => [.whitespace, .arrayStart, .selectorItem, .symbol, .arrayEnd]
  | .mapLiteral => [.whitespace, .mapStart, .mapEntry, .symbol, .mapEnd]
  | .mapEntry => [.whitespace, .selectorItem, .mapSeparator]
  | .condition => [.whitespace, .whereKeyword, .conditionChain]
  | .conditionChain => [.whitespace, .conditionItem, .reservedWord]
  | .conditionItem => [.whitespace, .selectorItem, .operator, .symbol]
  | _ => []

open Phrase in
theorem Category.over_partCategories (c : Category) : Over (· ∈ c.partCategories) c.parts := by
  have hpart : ∀ {s : List Category} {d : Category}, d ∈ s → Over (· ∈ s) (part d) :=
    fun {s} _ hd => Over.part (P := (· ∈ s)) hd
  have hspaced : ∀ {s : List Category} {l : Language Label}, Category.whitespace ∈ s →
      Over (· ∈ s) l → Over (· ∈ s) (Phrase.spaced l) :=
    fun {s} _ hw hl => Over.spaced (P := (· ∈ s)) hw hl
  have hword : ∀ {s : List Category} {d : Category} {accept : Text → Prop}, d ∈ s →
      Over (· ∈ s) (word d accept) :=
    fun {s} _ _ hd => Over.word (P := (· ∈ s)) hd
  have hname : ∀ {s : List Category}, Category.itemName ∈ s → Category.accessor ∈ s →
      Over (· ∈ s) qualifiedName :=
    fun hname hdot => (hpart hname).mul ((hpart hdot).mul (hpart hname)).maybe
  have hcollection : ∀ {s : List Category} {d e f : Category}, Category.whitespace ∈ s →
      Category.symbol ∈ s → d ∈ s → e ∈ s → f ∈ s → Over (· ∈ s) (collection d e f) :=
    fun hw hcomma hd he hf => (hpart hd).mul (((hspaced hw (hpart he)).mul
      ((hspaced hw (hword hcomma)).mul (hspaced hw (hpart he))).kstar).maybe.mul
        (hspaced hw (hpart hf)))
  cases c with
  | statement =>
      exact (((((hpart (by decide)).maybe.mul (hpart (by decide))).mul
        ((hspaced (by decide) (hpart (by decide))).mul
          (hspaced (by decide) (hpart (by decide))).maybe).maybe).mul
        (hspaced (by decide) (hpart (by decide))).maybe).mul (hpart (by decide)).maybe)
  | command =>
      have hitem : Over (· ∈ Category.partCategories .command) item :=
        ((((((hpart (by decide)).add (hpart (by decide))).add (hpart (by decide))).add
          (hpart (by decide))).add (hpart (by decide))).add (hpart (by decide))).add
            (hpart (by decide))
      exact (hpart (by decide)).mul ((hspaced (by decide) hitem).kstar.mul
        (hspaced (by decide) (hpart (by decide))).maybe)
  | reservedWordSequence =>
      exact (hpart (by decide)).mul ((hpart (by decide)).mul (hpart (by decide))).kstar
  | selectorItem =>
      exact ((hname (by decide) (by decide)).add (hpart (by decide))).add (hpart (by decide))
  | fieldName => exact hname (by decide) (by decide)
  | tableName => exact hname (by decide) (by decide)
  | itemName => exact (hpart (by decide)).add (hpart (by decide))
  | literal => exact ((hpart (by decide)).add (hpart (by decide))).add (hpart (by decide))
  | string => exact ((hpart (by decide)).mul (hpart (by decide)).maybe).mul (hpart (by decide))
  | arrayLiteral =>
      exact hcollection (by decide) (by decide) (by decide) (by decide) (by decide)
  | mapLiteral =>
      exact hcollection (by decide) (by decide) (by decide) (by decide) (by decide)
  | mapEntry =>
      exact ((hpart (by decide)).mul (hspaced (by decide) (hpart (by decide)))).mul
        (hspaced (by decide) (hpart (by decide)))
  | condition =>
      exact ((hpart (by decide)).mul (hpart (by decide))).mul (hpart (by decide))
  | conditionChain =>
      exact (hpart (by decide)).mul (((hspaced (by decide) (hword (by decide))).mul
        (hpart (by decide))).mul (hpart (by decide))).kstar
  | conditionItem =>
      exact ((hpart (by decide)).mul (hspaced (by decide)
        ((hpart (by decide)).add (hpart (by decide))))).mul
          (hspaced (by decide) (hpart (by decide)))
  | _ => exact Over.one

/-- The parts of a well-formed node have categories that suit it. -/
theorem Node.Formed.mem_partCategories {n m : Node} (h : n.Formed) (hm : m ∈ n.children) :
    m.category ∈ n.category.partCategories :=
  Category.over_partCategories n.category _ h.parts m.label (List.mem_map_of_mem hm)

/-- What passes from a category to those of its parts passes from a node to all below it. -/
theorem Node.Everywhere.of_category {P : Category → Prop} {n : Node} (h : n.Everywhere Formed)
    (hn : P n.category) (hP : ∀ c, P c → ∀ d ∈ c.partCategories, P d) :
    n.Everywhere fun m => P m.category := by
  induction n using induction_children with
  | step n ih =>
      exact everywhere_iff.mpr ⟨hn, fun m hm =>
        ih m hm (h.child hm) (hP n.category hn m.category (h.self.mem_partCategories hm))⟩

namespace Node

mutual

/-- The greatest number of nodes on a path from a node down to a leaf that `counts` picks
out, by the category of the node above and by what the node itself is. -/
def deepest (counts : Category → Label → Bool) (above : Category) : Node → Nat
  | ⟨category, spelling, _, _, _, _, children⟩ =>
    (counts above (category, spelling)).toNat + deepestAll counts category children

/-- The greatest of the numbers of the trees of a list. -/
def deepestAll (counts : Category → Label → Bool) (above : Category) : List Node → Nat
  | [] => 0
  | n :: ns => max (deepest counts above n) (deepestAll counts above ns)

end

end Node

/-- Whether the nodes of a category are counted as nested in each other. -/
def Category.isNested : Category → Bool
  | .command | .arrayLiteral | .mapLiteral => true
  | _ => false

/-- Whether a part of a node of the category `above` takes up a level: a command, a
collection, or the opening delimiter of a collection that a command has as a symbol. -/
def opensLevel (above : Category) (part : Label) : Bool :=
  part.1.isNested ||
    (above = .command && part.1 = .symbol && (part.2 = ['['] || part.2 = ['\x7b']))

/-- The greatest number of commands and collections on a path from the root to a leaf. -/
def Node.nesting (n : Node) : Nat :=
  n.deepest (fun _ part => part.1.isNested) .statement

/-- The greatest number of levels on a path from the root to a leaf. -/
def Node.levels (n : Node) : Nat :=
  n.deepest opensLevel .statement

namespace Node

variable {counts : Category → Label → Bool} {above : Category}

theorem deepest_eq (n : Node) :
    n.deepest counts above =
      (counts above n.label).toNat + deepestAll counts n.category n.children := by
  obtain ⟨_, _, _, _, _, _, _⟩ := n
  rw [deepest]
  rfl

@[simp] theorem deepestAll_nil : deepestAll counts above [] = 0 := rfl

@[simp] theorem deepestAll_cons (n : Node) (ns : List Node) :
    deepestAll counts above (n :: ns) =
      max (n.deepest counts above) (deepestAll counts above ns) := rfl

theorem deepestAll_eq_foldr (ns : List Node) :
    deepestAll counts above ns = (ns.map (deepest counts above)).foldr max 0 := by
  induction ns with
  | nil => rfl
  | cons n ns ih => rw [deepestAll_cons, ih, List.map_cons, List.foldr_cons]

theorem deepestAll_append (ns ms : List Node) :
    deepestAll counts above (ns ++ ms) =
      max (deepestAll counts above ns) (deepestAll counts above ms) := by
  induction ns with
  | nil => simp
  | cons n ns ih => simp [ih, max_assoc]

theorem deepestAll_le_iff {ns : List Node} {k : Nat} :
    deepestAll counts above ns ≤ k ↔ ∀ n ∈ ns, n.deepest counts above ≤ k := by
  induction ns with
  | nil => simp
  | cons n ns ih => simp [ih]

theorem deepestAll_chain (ns : List Node) :
    deepestAll counts above (chain ns) = deepestAll counts above ns := by
  have hlinks : ∀ (n : Node) (p q : Option Nat),
      deepest counts above { n with prev := p, next := q } = deepest counts above n :=
    fun n _ _ => by rw [deepest_eq, deepest_eq n]; rfl
  rw [deepestAll_eq_foldr, map_chain hlinks, deepestAll_eq_foldr]

/-- Every level of nesting is a level. -/
theorem nesting_le_levels (n : Node) : n.nesting ≤ n.levels := by
  have hdeepest : ∀ above : Category,
      n.deepest (fun _ part => part.1.isNested) above ≤ n.deepest opensLevel above := by
    induction n using induction_children with
    | step n ih =>
        intro above
        have hself : (n.label.1.isNested).toNat ≤ (opensLevel above n.label).toNat := by
          unfold opensLevel
          cases n.label.1.isNested <;> simp
        have hchildren : deepestAll (fun _ part => part.1.isNested) n.category n.children ≤
            deepestAll opensLevel n.category n.children :=
          deepestAll_le_iff.mpr fun m hm =>
            (ih m hm n.category).trans (deepestAll_le_iff.mp le_rfl m hm)
        rw [deepest_eq, deepest_eq]
        exact Nat.add_le_add hself hchildren
  exact hdeepest .statement

/-- Whether no command has the opening delimiter of a collection as a symbol. -/
def OpensAll (n : Node) : Prop :=
  n.Everywhere fun m => m.category = .command → ∀ k ∈ m.children, k.category = .symbol →
    k.spelling ≠ ['['] ∧ k.spelling ≠ ['\x7b']

instance (n : Node) : Decidable n.OpensAll :=
  inferInstanceAs (Decidable (∀ m ∈ n.preorder, m.category = .command → ∀ k ∈ m.children,
    k.category = .symbol → k.spelling ≠ ['['] ∧ k.spelling ≠ ['\x7b']))

/-- Where all opening delimiters open collections, the levels are those of nesting. -/
theorem OpensAll.levels_eq_nesting {n : Node} (h : n.OpensAll) : n.levels = n.nesting := by
  have hdeepest : ∀ above : Category, (above = .command → n.category = .symbol →
      n.spelling ≠ ['['] ∧ n.spelling ≠ ['\x7b']) →
      n.deepest opensLevel above ≤ n.deepest (fun _ part => part.1.isNested) above := by
    induction n using induction_children with
    | step n ih =>
        intro above habove
        have hself : opensLevel above n.label = n.label.1.isNested := by
          change opensLevel above (n.category, n.spelling) = n.category.isNested
          rw [opensLevel, Bool.or_eq_left_iff_imp]
          intro hlone
          obtain ⟨⟨hcommand, hsymbol⟩, hs⟩ : (above = .command ∧ n.category = .symbol) ∧
              (n.spelling = ['['] ∨ n.spelling = ['\x7b']) := by
            simpa using hlone
          obtain ⟨hbracket, hbrace⟩ := habove hcommand hsymbol
          exact (hs.elim hbracket hbrace).elim
        have hchildren : deepestAll opensLevel n.category n.children ≤
            deepestAll (fun _ part => part.1.isNested) n.category n.children :=
          deepestAll_le_iff.mpr fun m hm =>
            (ih m hm (h.child hm) n.category fun hc => h.self hc m hm).trans
              (deepestAll_le_iff.mp le_rfl m hm)
        rw [deepest_eq, deepest_eq, hself]
        exact Nat.add_le_add_left hchildren _
  exact (hdeepest .statement nofun).antisymm n.nesting_le_levels

end Node

/-- Whether nothing below a node of the category takes up a level. -/
def Category.isFlat : Category → Bool
  | .statement | .command | .arrayLiteral | .mapLiteral => false
  | _ => true

theorem Category.isFlat_of_mem_partCategories {c d : Category} (hc : c.isFlat = true)
    (hd : d ∈ c.partCategories) : d.isFlat = true := by
  have hall : c.partCategories.all isFlat = true := by
    revert hc
    cases c <;> decide
  exact List.all_eq_true.mp hall d hd

namespace Node

/-- Nothing in a selector, a condition or a run of keywords takes up a level. -/
theorem Everywhere.deepest_eq_zero {n : Node} (h : n.Everywhere Formed)
    (hflat : n.category.isFlat = true) {above : Category}
    (habove : above = .command → n.category ≠ .symbol) : n.deepest opensLevel above = 0 := by
  induction n using induction_children generalizing above with
  | step n ih =>
      have hself : opensLevel above n.label = false := by
        have hnested : n.category.isNested = false := by
          revert hflat
          cases n.category <;> decide
        simp only [opensLevel, label, hnested, Bool.false_or, Bool.and_eq_false_iff]
        by_cases hcommand : above = .command
        · exact Or.inl (Or.inr (decide_eq_false (habove hcommand)))
        · exact Or.inl (Or.inl (decide_eq_false hcommand))
      have hchildren : deepestAll opensLevel n.category n.children ≤ 0 := by
        refine deepestAll_le_iff.mpr fun m hm => (ih m hm (h.child hm) ?_ ?_).le
        · exact Category.isFlat_of_mem_partCategories hflat (h.self.mem_partCategories hm)
        · intro hcommand
          rw [hcommand] at hflat
          cases hflat
      rw [deepest_eq, hself, Nat.le_zero.mp hchildren]
      rfl

/-- A collection takes up one level, for its elements do not nest. -/
theorem Everywhere.deepest_collection {n : Node} (h : n.Everywhere Formed)
    (hcategory : n.category = .arrayLiteral ∨ n.category = .mapLiteral) {above : Category} :
    n.deepest opensLevel above = 1 := by
  have hself : opensLevel above n.label = true := by
    rcases hcategory with hc | hc <;> simp [opensLevel, label, hc, Category.isNested]
  have hchildren : deepestAll opensLevel n.category n.children ≤ 0 := by
    refine deepestAll_le_iff.mpr fun m hm => ((h.child hm).deepest_eq_zero ?_ ?_).le
    · have hmem := h.self.mem_partCategories hm
      have hall : ∀ c ∈ [Category.arrayLiteral, .mapLiteral],
          c.partCategories.all Category.isFlat = true := by decide
      exact List.all_eq_true.mp (hall _ (by simpa using hcategory)) _ hmem
    · intro hcommand
      rcases hcategory with hc | hc <;> rw [hc] at hcommand <;> cases hcommand
  rw [deepest_eq, hself, Nat.le_zero.mp hchildren]
  rfl

end Node

end QueryTree
