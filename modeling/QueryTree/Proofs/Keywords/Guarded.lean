import QueryTree.Proofs.Keywords.Spared

/-!
# Blobs outside of collections and comparisons

A command reads its selectors only where no clause word begins. A blob over a clause word is
therefore found inside of arrays, maps and comparisons only, where selectors are read without a
look at the keywords.
-/

namespace QueryTree

open Recognizer Grammar

/-- The categories of nodes whose selectors are read without a look at the keywords. -/
def Category.isUnguarded (c : Category) : Prop :=
  c = .arrayLiteral ∨ c = .mapLiteral ∨ c = .conditionItem

/-- Whether a blob in front of a text is no clause word. -/
def IsNoClauseWord (w rest : Text) : Prop :=
  Text.IsRun Char.isAlphanum w rest → isClauseWord w = false

namespace Node

variable {m n : Node} {ns : List Node} {c : Category} {rest : Text}

/-- Whether a node is found in a tree without passing through an array, a map or a
comparison. -/
inductive Exposed (m : Node) : Node → Prop
  | self : Exposed m m
  | child {n k : Node} (hn : ¬n.category.isUnguarded) (hk : k ∈ n.children) (h : Exposed m k) :
      Exposed m n

/-- Whether the exposed blobs of a tree are no clause words. -/
def IsGuarded (n : Node) : Prop :=
  ∀ m, Exposed m n → m.category = .hexBlob → IsNoClauseWord m.spelling m.following

theorem Exposed.mem_preorder (h : Exposed m n) : m ∈ n.preorder := by
  induction h with
  | self => exact self_mem_preorder m
  | child _ hk _ ih => exact mem_preorder_iff.mpr (Or.inr ⟨_, hk, ih⟩)

/-- A node that is not exposed is below an array, a map or a comparison. -/
theorem exists_isUnguarded (hm : m ∈ n.preorder) (h : ¬Exposed m n) :
    ∃ k ∈ n.preorder, k.category.isUnguarded ∧ m ∈ k.preorder := by
  induction n using induction_children with
  | step n ih =>
      by_cases hn : n.category.isUnguarded
      · exact ⟨n, self_mem_preorder n, hn, hm⟩
      · rcases mem_preorder_iff.mp hm with rfl | ⟨k, hk, hmk⟩
        · exact absurd .self h
        · obtain ⟨l, hl, hunguarded, hml⟩ := ih k hk hmk fun hexposed => h (.child hn hk hexposed)
          exact ⟨l, mem_preorder_iff.mpr (Or.inr ⟨k, hk, hl⟩), hunguarded, hml⟩

theorem BlobsAll.isGuarded (h : n.BlobsAll IsNoClauseWord) : n.IsGuarded :=
  fun m hm => h m hm.mem_preorder

theorem isGuarded_of_isUnguarded (hc : n.category.isUnguarded) : n.IsGuarded := by
  intro m hm hblob
  cases hm with
  | self =>
      rw [hblob] at hc
      rcases hc with hc | hc | hc <;> cases hc
  | child hn _ _ => exact absurd hc hn

theorem IsGuarded.linked (h : n.IsGuarded) (p q : Option Nat) : (n.linked p q).IsGuarded := by
  intro m hm hblob
  cases hm with
  | self => exact h n .self hblob
  | child hn hk hm => exact h m (.child hn hk hm) hblob

theorem isGuarded_branch (h : ∀ m ∈ ns, m.IsGuarded) (hc : c ≠ .hexBlob) :
    (branch c (chain ns) rest).IsGuarded := by
  intro m hm hblob
  cases hm with
  | self => exact absurd hblob hc
  | child _ hk hm =>
      obtain ⟨k, hmem, p, q, rfl⟩ := mem_chain hk
      exact (h k hmem).linked p q m hm hblob

end Node

open Node

namespace Grammar

variable {r : Recognizer Node} {u : Recognizer (List Node)} {l : Language Label} {c : Category}

theorem isGuarded_of_isBlobless (h : r.Finds l) (hl : Phrase.Over (·.isBlobless = true) l) :
    r.FindsOnly IsGuarded := by
  have hblobs : r.ReadsBlobs (fun _ _ => True) IsNoClauseWord := .of_isBlobless h hl
  exact fun t n rest hn => (hblobs t n rest hn trivial).isGuarded

theorem isGuarded_of_isUnguarded (h : r.Finds (Phrase.part c)) (hc : c.isUnguarded) :
    r.FindsOnly IsGuarded := by
  intro t n rest hn
  have hcategory : n.category = c := Phrase.label_mem_part.mp (h t n rest hn).labels
  exact Node.isGuarded_of_isUnguarded (hcategory ▸ hc)

theorem isGuarded_node (h : u.YieldsOnly IsGuarded) (hc : c ≠ .hexBlob) :
    (Recognizer.node c u).FindsOnly IsGuarded := by
  intro t n rest hn
  obtain ⟨ns, hns, rfl⟩ := node_eq_found.mp hn
  exact isGuarded_branch (h t ns rest hns) hc

theorem isGuarded_whitespace : whitespace.FindsOnly IsGuarded :=
  isGuarded_of_isBlobless whitespace_finds (.part rfl)

theorem isGuarded_spaced (h : r.FindsOnly IsGuarded) : (Grammar.spaced r).YieldsOnly IsGuarded :=
  isGuarded_whitespace.one.optional.seq h.one

/-- Where no clause word begins, no selector is a clause word. -/
theorem selector_isNoClauseWord {role : Category} (hrole : IsRole role) :
    (selector role).ReadsBlobs (fun t _ => ¬BeginsClause t) IsNoClauseWord := by
  refine selector_readsBlobs (fun _ h => .of_hexBlob h fun n hn hc hfree hrun => ?_) hrole
  exact Bool.eq_false_iff.mpr fun hclause => hfree (hn.beginsClause hc rfl hrun hclause)

theorem isGuarded_plainItem {role : Category} (hrole : IsRole role) (room : Nat) {t rest : Text}
    {n : Node} (hfree : ¬BeginsClause t) (h : plainItem room role t = .found n rest) :
    n.IsGuarded := by
  rcases orElse_eq_found.mp h with h | ⟨_, h⟩
  · rcases orElse_eq_found.mp h with h | ⟨_, h⟩
    · exact (isGuarded_of_isUnguarded (arrayLiteral_finds room) (Or.inl rfl)).orElse
        (isGuarded_of_isUnguarded (mapLiteral_finds room) (Or.inr (Or.inl rfl))) t n rest h
    · exact (selector_isNoClauseWord hrole t n rest h hfree).isGuarded
  · exact isGuarded_of_isBlobless symbol_finds (.part rfl) t n rest h

theorem isGuarded_reservedWordSequence : reservedWordSequence.FindsOnly IsGuarded :=
  isGuarded_of_isBlobless reservedWordSequence_finds (.part rfl)

theorem isGuarded_commandItem (room : Nat) (context : NameContext) :
    (commandItem room context).FindsOnly IsGuarded := by
  intro t n rest h
  rcases commandItem_cases h with hwords | ⟨hleading, hplain⟩
  · exact isGuarded_reservedWordSequence t n rest hwords
  · exact isGuarded_plainItem context.isRole_role room (not_beginsClause_of_leadingWord hleading)
      hplain

theorem isGuarded_command (room : Nat) : (command room).FindsOnly IsGuarded := by
  induction room with
  | zero => exact refused_findsOnly
  | succ room ih =>
      have hitems : ∀ words, (commandItems room words).YieldsOnly IsGuarded := fun _ =>
        YieldsOnly.repeated fun context => isGuarded_spaced (isGuarded_commandItem room context)
      exact isGuarded_node (isGuarded_reservedWordSequence.andThen fun sequence =>
        (hitems (keywordsOf sequence)).seq (isGuarded_spaced ih).optional) (by decide)

theorem isGuarded_condition : condition.FindsOnly IsGuarded := by
  have hitem : ∀ demand, (conditionItemUnder demand).FindsOnly IsGuarded := fun demand =>
    isGuarded_of_isUnguarded (conditionItem_finds demand) (Or.inr (Or.inr rfl))
  have hjoin : conjunction.FindsOnly IsGuarded :=
    isGuarded_of_isBlobless conjunction_finds (.word rfl)
  have hgap : (whitespace.required .whitespace).FindsOnly IsGuarded :=
    isGuarded_whitespace.orFault _
  have hchain : (conditionChain .mandatory).FindsOnly IsGuarded :=
    isGuarded_node ((hitem .mandatory).one.seq (((isGuarded_spaced hjoin).seq hgap.one).seq
      ((hitem .optional).orFault _).one).many) (by decide)
  exact isGuarded_node (((isGuarded_of_isBlobless whereKeyword_finds (.part rfl)).one.seq
    hgap.one).seq hchain.one) (by decide)

theorem isGuarded_statementParts (depth : Nat) : (statementParts depth).YieldsOnly IsGuarded :=
  (((isGuarded_whitespace.one.optional.seq ((isGuarded_command depth).orFault _).one).seq
      ((isGuarded_spaced isGuarded_condition).seq
        (isGuarded_spaced (isGuarded_command depth)).optional).optional).seq
      (isGuarded_spaced (isGuarded_of_isBlobless terminator_finds (.part rfl))).optional).seq
    isGuarded_whitespace.one.optional

end Grammar

/-- A blob of a source that is a clause word is inside of an array, a map or a comparison. -/
theorem exists_isUnguarded_of_parse {depth : Nat} {q : Text} {root n : Node}
    (h : parse depth q = .ok root) (hn : n ∈ root.preorder) (hc : n.category = .hexBlob)
    (hrun : Text.IsRun Char.isAlphanum n.spelling n.following)
    (hclause : isClauseWord n.spelling = true) :
    ∃ k ∈ root.preorder, k.category.isUnguarded ∧ n ∈ k.preorder := by
  refine Node.exists_isUnguarded hn fun hexposed => ?_
  obtain ⟨_, ns, hns, rfl⟩ := statement_eq_found.mp (parse_eq_ok.mp h)
  have hguarded := isGuarded_statementParts depth q ns [] hns
  cases hexposed with
  | self => cases hc
  | child _ hk hexposed =>
      rw [hguarded _ hk n hexposed hc hrun] at hclause
      cases hclause

end QueryTree
