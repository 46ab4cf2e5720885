import QueryTree.Proofs.Derivation.Phrase

/-!
# Tokens

The tokens of a tree are its strings and its leaves outside of strings. They cover
the source as the leaves do, but a string counts as one piece. What kind of token a
piece is can be told from its characters.
-/

namespace QueryTree

namespace Text

/-- The characters by which tokens are told apart: those that separate words, the two
quotes and the bind marker. -/
def special : Text :=
  [' ', '\t', '\r', '\n', '\'', '"', '?']

/-- Whether a character is none of the special ones. -/
def isPlain (c : Char) : Bool :=
  !special.contains c

theorem isPlain_iff {c : Char} : isPlain c = true ↔ c ∉ special := by
  simp [isPlain]

theorem ne_of_isPlain {c d : Char} (hd : isPlain d = true) (hc : c ∈ special) : c ≠ d := by
  rintro rfl
  exact isPlain_iff.mp hd hc

theorem eq_false_of_mem_special {p : Char → Bool} (hp : special.any p = false) {c : Char}
    (hc : c ∈ special) : p c = false := by
  simpa using List.any_eq_false.mp hp c hc

/-- A class of characters without special ones is plain. -/
theorem isPlain_of_class {p : Char → Bool} (hp : special.any p = false) {c : Char}
    (h : p c = true) : isPlain c = true :=
  isPlain_iff.mpr fun hc => by simp [eq_false_of_mem_special hp hc] at h

theorem isPlain_of_isAlphanum {c : Char} (h : c.isAlphanum = true) : isPlain c = true :=
  isPlain_of_class (by decide) h

theorem isPlain_of_isBlobChar {c : Char} (h : Grammar.isBlobChar c = true) :
    isPlain c = true :=
  isPlain_of_class (by decide) h

theorem isPlain_of_mem_symbols {c : Char} (h : c ∈ Grammar.symbols) : isPlain c = true :=
  isPlain_of_class (p := fun c => Grammar.symbols.contains c) (by decide)
    (List.contains_iff_mem.mpr h)

end Text

namespace Node

mutual

/-- The strings of a tree and its leaves outside of strings, from left to right. -/
def tokens : Node → List Node
  | ⟨category, spelling, following, prev, next, replacement, children⟩ =>
    if category = .string ∨ children = [] then
      [⟨category, spelling, following, prev, next, replacement, children⟩]
    else tokensAll children

/-- The tokens of a list of trees. -/
def tokensAll : List Node → List Node
  | [] => []
  | n :: ns => tokens n ++ tokensAll ns

end

theorem tokensAll_eq_flatMap (ns : List Node) : tokensAll ns = ns.flatMap tokens := by
  induction ns with
  | nil => rfl
  | cons n ns ih => simp [tokensAll, ih]

theorem tokens_of_whole {n : Node} (h : n.category = .string ∨ n.children = []) :
    n.tokens = [n] := by
  obtain ⟨_, _, _, _, _, _, _⟩ := n
  rw [tokens, if_pos h]

theorem tokens_of_parts {n : Node} (hc : n.category ≠ .string) (hn : n.children ≠ []) :
    n.tokens = n.children.flatMap tokens := by
  obtain ⟨_, _, _, _, _, _, _⟩ := n
  rw [tokens, if_neg (not_or.mpr ⟨hc, hn⟩), tokensAll_eq_flatMap]

theorem Everywhere.tiles_tokens {n : Node} (h : n.Everywhere Tiled) :
    Tiles (n.spelling ++ n.following) n.tokens n.following := by
  induction n using induction_children with
  | step n ih =>
      by_cases hn : n.category = .string ∨ n.children = []
      · rw [tokens_of_whole hn]
        exact ⟨rfl, rfl⟩
      · obtain ⟨hc, hchildren⟩ := not_or.mp hn
        rw [tokens_of_parts hc hchildren]
        exact (h.self hchildren).flatMap fun m hm => ih m hm (h.child hm)

/-- The leaves of a tree are those of its tokens. -/
theorem leaves_eq_flatMap_tokens (n : Node) : n.leaves = n.tokens.flatMap leaves := by
  induction n using induction_children with
  | step n ih =>
      by_cases hn : n.category = .string ∨ n.children = []
      · rw [tokens_of_whole hn, List.flatMap_singleton]
      · obtain ⟨hc, hchildren⟩ := not_or.mp hn
        rw [tokens_of_parts hc hchildren, List.flatMap_assoc, leaves_of_children hchildren]
        exact List.flatMap_congr ih

theorem mem_preorder_of_mem_tokens {m n : Node} (h : m ∈ n.tokens) : m ∈ n.preorder := by
  induction n using induction_children with
  | step n ih =>
      by_cases hn : n.category = .string ∨ n.children = []
      · rw [tokens_of_whole hn, List.mem_singleton] at h
        exact h ▸ self_mem_preorder m
      · obtain ⟨hc, hchildren⟩ := not_or.mp hn
        rw [tokens_of_parts hc hchildren] at h
        obtain ⟨k, hk, hm⟩ := List.mem_flatMap.mp h
        exact mem_preorder_iff.mpr (Or.inr ⟨k, hk, ih k hk hm⟩)

/-- What a token is, as told from its characters and those after it. -/
inductive IsToken (n : Node) : Prop where
  /-- A string, which the text after it does not go on with. -/
  | string (s : Text) (hc : n.category = .string) (hs : n.spelling = Text.quoted s)
      (hend : n.following.head? ≠ some '\'')
  /-- A bind marker. -/
  | mark (hc : n.category = .placeholderInject) (hleaf : n.children = [])
      (hs : n.spelling = ['?'])
  /-- A run of whitespace. -/
  | layout (hc : n.category = .whitespace) (hleaf : n.children = [])
      (hrun : Text.IsRun Text.isLayout n.spelling n.following)
  /-- A name between double quotes. -/
  | name (body : Text) (hc : n.category = .itemNameCaseSensitive) (hleaf : n.children = [])
      (hbody : body ≠ []) (halnum : ∀ c ∈ body, c.isAlphanum = true)
      (hs : n.spelling = '"' :: (body ++ ['"']))
  /-- Any other leaf, which has plain characters only. -/
  | plain (hstring : n.category ≠ .string) (hmark : n.category ≠ .placeholderInject)
      (hleaf : n.children = []) (hne : n.spelling ≠ [])
      (hplain : ∀ c ∈ n.spelling, Text.isPlain c = true)

end Node

/-- Whether nodes of a category are found inside of strings only. -/
def Category.isInString (c : Category) : Bool :=
  c = .quote ∨ c = .inputCharacters

open Phrase in
/-- What stands inside of strings is not found elsewhere. -/
theorem Category.over_parts_of_ne_string {c : Category} (hc : c ≠ .string) :
    Over (fun d => d.isInString = false) c.parts := by
  have hpart : ∀ {d : Category}, d.isInString = false →
      Over (fun d => d.isInString = false) (part d) :=
    fun hd => Over.part (P := fun d => d.isInString = false) hd
  have hspaced : ∀ {l : Language Label}, Over (fun d => d.isInString = false) l →
      Over (fun d => d.isInString = false) (Phrase.spaced l) := Over.spaced rfl
  have hgap : Over (fun d => d.isInString = false) gap := (hpart rfl).maybe
  have hname : Over (fun d => d.isInString = false) qualifiedName :=
    (hpart rfl).mul ((hpart rfl).mul (hpart rfl)).maybe
  have hcollection : ∀ {d e f : Category}, d.isInString = false → e.isInString = false →
      f.isInString = false → Over (fun d => d.isInString = false) (collection d e f) :=
    fun hd he hf => (hpart hd).mul (((hspaced (hpart he)).mul
      ((hspaced (Over.word rfl)).mul (hspaced (hpart he))).kstar).maybe.mul
        (hspaced (hpart hf)))
  cases c with
  | string => exact absurd rfl hc
  | statement =>
      exact ((((hgap.mul (hpart rfl)).mul ((hspaced (hpart rfl)).mul
        (hspaced (hpart rfl)).maybe).maybe).mul (hspaced (hpart rfl)).maybe).mul hgap)
  | command =>
      have hitem : Over (fun d => d.isInString = false) item :=
        ((((((hpart rfl).add (hpart rfl)).add (hpart rfl)).add (hpart rfl)).add
          (hpart rfl)).add (hpart rfl)).add (hpart rfl)
      exact (hpart rfl).mul ((hspaced hitem).kstar.mul (hspaced (hpart rfl)).maybe)
  | reservedWordSequence => exact (hpart rfl).mul ((hpart rfl).mul (hpart rfl)).kstar
  | selectorItem => exact (hname.add (hpart rfl)).add (hpart rfl)
  | fieldName => exact hname
  | tableName => exact hname
  | itemName => exact (hpart rfl).add (hpart rfl)
  | literal => exact ((hpart rfl).add (hpart rfl)).add (hpart rfl)
  | arrayLiteral => exact hcollection rfl rfl rfl
  | mapLiteral => exact hcollection rfl rfl rfl
  | mapEntry => exact ((hpart rfl).mul (hspaced (hpart rfl))).mul (hspaced (hpart rfl))
  | condition => exact ((hpart rfl).mul (hpart rfl)).mul (hpart rfl)
  | conditionChain =>
      exact (hpart rfl).mul (((hspaced (Over.word rfl)).mul (hpart rfl)).mul
        (hpart rfl)).kstar
  | conditionItem =>
      exact ((hpart rfl).mul (hspaced ((hpart rfl).add (hpart rfl)))).mul
        (hspaced (hpart rfl))
  | _ => exact Over.one

open Phrase in
/-- A string is made of nothing else. -/
theorem Category.over_parts_string :
    Over (fun d => d.isInString = true) (Category.parts .string) := by
  have hpart : ∀ {d : Category}, d.isInString = true →
      Over (fun d => d.isInString = true) (part d) :=
    fun hd => Over.part (P := fun d => d.isInString = true) hd
  exact ((hpart rfl).mul (hpart rfl).maybe).mul (hpart rfl)

/-- Apart from marks, layout, quoted names and what stands inside of strings, the
leaves are plain. -/
theorem Category.Spells.isPlain {c : Category} {w rest : Text} (h : c.Spells w rest)
    (hcomposite : c.isComposite = false) (hstring : c.isInString = false)
    (hc : c ∉ [Category.placeholderInject, .whitespace, .itemNameCaseSensitive]) :
    ∀ x ∈ w, Text.isPlain x = true := by
  have hword : Text.IsRun Char.isAlphanum w rest → ∀ x ∈ w, Text.isPlain x = true :=
    fun hrun x hx => Text.isPlain_of_isAlphanum (hrun.2.1 x hx)
  have hclosed : ∀ v : Text, v.all Text.isPlain = true → w = v →
      ∀ x ∈ w, Text.isPlain x = true :=
    fun v hv hw x hx => List.all_eq_true.mp hv x (hw ▸ hx)
  cases c with
  | placeholderInject => simp at hc
  | whitespace => simp at hc
  | itemNameCaseSensitive => simp at hc
  | quote => cases hstring
  | inputCharacters => cases hstring
  | chars => exact hword h
  | reservedWord => exact hword h.1
  | whereKeyword => exact hword h.1
  | itemNameCaseInsensitive => exact hword h.1
  | number =>
      intro x hx
      exact Text.isPlain_of_isAlphanum (by simp [Char.isAlphanum, h.2.1 x hx])
  | hexBlob =>
      intro x hx
      exact Text.isPlain_of_isBlobChar (h.1.2.1 x hx)
  | symbol =>
      obtain ⟨d, hd, rfl⟩ := h
      intro x hx
      exact List.mem_singleton.mp hx ▸ Text.isPlain_of_mem_symbols hd
  | operator =>
      have hall : ∀ v ∈ [['<', '='], ['>', '='], ['!', '='], ['<'], ['>']],
          v.all Text.isPlain = true := by decide
      exact hclosed w (hall w h) rfl
  | accessor => exact hclosed _ rfl h
  | mapSeparator => exact hclosed _ rfl h
  | terminator => exact hclosed _ rfl h
  | arrayStart => exact hclosed _ rfl h
  | arrayEnd => exact hclosed _ rfl h
  | mapStart => exact hclosed _ rfl h
  | mapEnd => exact hclosed _ rfl h
  | _ => cases hcomposite

namespace Node

theorem Formed.child_of_ne_string {n m : Node} (h : n.Formed) (hc : n.category ≠ .string)
    (hm : m ∈ n.children) : m.category.isInString = false :=
  Category.over_parts_of_ne_string hc _ h.parts m.label (List.mem_map_of_mem hm)

theorem Formed.child_of_string {n m : Node} (h : n.Formed) (hc : n.category = .string)
    (hm : m ∈ n.children) : m.category.isInString = true :=
  Category.over_parts_string _ (hc ▸ h.parts) m.label (List.mem_map_of_mem hm)

theorem Formed.children_ne_nil {n : Node} (h : n.Formed)
    (hc : n.category.isComposite = true) : n.children ≠ [] := by
  intro hn
  have hparts := h.parts
  rw [hn] at hparts
  exact Category.nil_notMem_parts hc hparts

theorem Formed.children_eq_nil {n : Node} (h : n.Formed)
    (hc : n.category.isComposite = false) : n.children = [] := by
  have hparts := h.parts
  rw [Category.parts_eq_one hc] at hparts
  exact List.map_eq_nil_iff.mp hparts

/-- A leaf outside of strings is a token. -/
theorem Formed.isToken_of_isLeaf {n : Node} (h : n.Formed) (hleaf : n.children = [])
    (hout : n.category.isInString = false) : n.IsToken := by
  have hcomposite : n.category.isComposite = false := by
    by_contra hc
    exact h.children_ne_nil (by simpa using hc) hleaf
  have hspells := h.spells
  by_cases hc : n.category ∈ [Category.placeholderInject, .whitespace, .itemNameCaseSensitive]
  · simp only [List.mem_cons, List.not_mem_nil, or_false] at hc
    rcases hc with hc | hc | hc
    · rw [hc] at hspells
      exact .mark hc hleaf hspells
    · rw [hc] at hspells
      exact .layout hc hleaf hspells
    · rw [hc] at hspells
      obtain ⟨body, hbody, halnum, hs⟩ := hspells
      exact .name body hc hleaf hbody halnum hs
  · have hstring : n.category ≠ .string := fun hs => by
      simp [hs, Category.isComposite] at hcomposite
    have hmark : n.category ≠ .placeholderInject := fun hm => by simp [hm] at hc
    exact .plain hstring hmark hleaf h.nonempty (hspells.isPlain hcomposite hout hc)

theorem Formed.isToken_of_string {n : Node} (h : n.Formed) (hc : n.category = .string) :
    n.IsToken := by
  obtain ⟨s, hs, hend⟩ := hc ▸ h.spells
  exact .string s hc hs hend

/-- What holds of well-formed strings, and of well-formed leaves outside of strings, holds of all
tokens. -/
theorem forall_mem_tokens {P : Node → Prop} {n : Node} (h : n.Everywhere Formed)
    (hout : n.category.isInString = false)
    (hP : ∀ m : Node, m.Formed → m.category = .string ∨ m.children = [] →
      m.category.isInString = false → P m) : ∀ m ∈ n.tokens, P m := by
  induction n using induction_children with
  | step n ih =>
      by_cases hn : n.category = .string ∨ n.children = []
      · rw [tokens_of_whole hn]
        exact List.forall_mem_singleton.mpr (hP n h.self hn hout)
      · obtain ⟨hc, hchildren⟩ := not_or.mp hn
        rw [tokens_of_parts hc hchildren]
        intro m hm
        obtain ⟨k, hk, hmk⟩ := List.mem_flatMap.mp hm
        exact ih k hk (h.child hk) (h.self.child_of_ne_string hc hk) m hmk

/-- What the tree of a source is made of are tokens. -/
theorem isToken_of_mem_tokens {m n : Node} (h : n.Everywhere Formed)
    (hout : n.category.isInString = false) (hm : m ∈ n.tokens) : m.IsToken := by
  refine forall_mem_tokens h hout (fun k hk hwhole hk' => ?_) m hm
  rcases hwhole with hc | hleaf
  · exact hk.isToken_of_string hc
  · exact hk.isToken_of_isLeaf hleaf hk'

/-- All bind markers are tokens. -/
theorem nodes_placeholder {n : Node} (h : n.Everywhere Formed) :
    n.nodes .placeholderInject = n.tokens.filter fun m => m.category = .placeholderInject := by
  rw [nodes_eq_filter]
  induction n using induction_children with
  | step n ih =>
      by_cases hn : n.children = []
      · rw [tokens_of_whole (Or.inr hn), preorder_eq, hn, preorderAll]
      · have hmark : n.category ≠ .placeholderInject := fun hmark =>
          hn (h.self.children_eq_nil (by rw [hmark]; rfl))
        rw [preorder_eq, List.filter_cons_of_neg (by simp [hmark]), preorderAll_eq_flatMap,
          List.filter_flatMap]
        by_cases hc : n.category = .string
        · rw [tokens_of_whole (Or.inl hc), List.filter_cons_of_neg (by simp [hmark]),
            List.filter_nil, List.flatMap_eq_nil_iff]
          intro m hm
          have hin := h.self.child_of_string hc hm
          have hm' : m.children = [] := (h.child hm).self.children_eq_nil (by
            revert hin; cases m.category <;> decide)
          rw [preorder_eq, hm', preorderAll, List.filter_cons_of_neg, List.filter_nil]
          revert hin; cases m.category <;> decide
        · rw [tokens_of_parts hc hn, List.filter_flatMap]
          exact List.flatMap_congr fun m hm => ih m hm (h.child hm)

end Node

end QueryTree
