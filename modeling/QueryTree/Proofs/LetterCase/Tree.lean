import QueryTree.Proofs.Correspondence.Grammar
import QueryTree.Proofs.LetterCase.Text
import QueryTree.Proofs.Marks.Scan
import QueryTree.Proofs.Tree.Paths

/-!
# Reading does not mind the case of letters

Reading the upper case of a source gives the upper case of its tree, or the same error
with the upper case of the text that was found. So sources that differ in the case of
letters only are read alike, whether they are read at all or not.
-/

namespace QueryTree

open Recognizer Grammar

namespace Node

mutual

/-- A tree with all of its texts in upper case. -/
def upper : Node → Node
  | ⟨category, spelling, following, prev, next, replacement, children⟩ =>
    ⟨category, Text.upper spelling, Text.upper following, prev, next,
      replacement.map Text.upper, upperAll children⟩

/-- A list of trees with all of their texts in upper case. -/
def upperAll : List Node → List Node
  | [] => []
  | n :: ns => upper n :: upperAll ns

end

theorem upperAll_eq_map (ns : List Node) : upperAll ns = ns.map upper := by
  induction ns with
  | nil => rfl
  | cons n ns ih => rw [upperAll, ih, List.map_cons]

theorem upper_eq (n : Node) :
    n.upper = ⟨n.category, Text.upper n.spelling, Text.upper n.following, n.prev, n.next,
      n.replacement.map Text.upper, n.children.map upper⟩ := by
  obtain ⟨_, _, _, _, _, _, _⟩ := n
  rw [upper, upperAll_eq_map]

@[simp] theorem category_upper (n : Node) : n.upper.category = n.category := by
  rw [upper_eq]

@[simp] theorem spelling_upper (n : Node) : n.upper.spelling = Text.upper n.spelling := by
  rw [upper_eq]

@[simp] theorem following_upper (n : Node) : n.upper.following = Text.upper n.following := by
  rw [upper_eq]

@[simp] theorem children_upper (n : Node) : n.upper.children = n.children.map upper := by
  rw [upper_eq]

@[simp] theorem shape_upper (n : Node) : n.upper.shape = n.shape := by
  rw [upper_eq, shape, shape, List.length_map]

theorem linked_upper (p q : Option Nat) (n : Node) :
    (n.linked p q).upper = n.upper.linked p q := by
  rw [upper_eq, upper_eq]
  rfl

@[simp] theorem leaf_upper (c : Category) (w rest : Text) :
    (leaf c w rest).upper = leaf c (Text.upper w) (Text.upper rest) := by
  rw [upper_eq]
  rfl

theorem flatten_map_spelling_upper (ns : List Node) :
    ((ns.map upper).map spelling).flatten = Text.upper (ns.map spelling).flatten := by
  rw [Text.upper, List.map_flatten, List.map_map, List.map_map]
  exact congrArg List.flatten (List.map_congr_left fun n _ => spelling_upper n)

@[simp] theorem branch_upper (c : Category) (ns : List Node) (rest : Text) :
    (branch c ns rest).upper = branch c (ns.map upper) (Text.upper rest) := by
  rw [upper_eq, branch, branch, flatten_map_spelling_upper]
  rfl

theorem chainFrom_upper (i : Nat) (ns : List Node) :
    (chainFrom i ns).map upper = chainFrom i (ns.map upper) := by
  induction ns generalizing i with
  | nil => rfl
  | cons n ns ih =>
      rw [chainFrom, List.map_cons, ih, List.map_cons, chainFrom, List.isEmpty_map]
      exact congrArg (· :: _) (linked_upper _ _ n)

@[simp] theorem chain_upper (ns : List Node) : (chain ns).map upper = chain (ns.map upper) :=
  chainFrom_upper 0 ns

theorem at?_upper (path : Path) (n : Node) : n.upper.at? path = (n.at? path).map upper := by
  induction path generalizing n with
  | nil => rfl
  | cons i path ih =>
      rw [at?_cons, at?_cons, children_upper, List.getElem?_map, Option.bind_map, Option.map_bind]
      exact Option.bind_congr fun m _ => ih m

/-- The byte offsets at which a node of the tree of a source begins and ends. -/
def span (source : Text) (n : Node) : Nat × Nat :=
  (n.start source, Text.byteSize source - Text.byteSize n.following)

theorem span_upper (source : Text) (n : Node) :
    n.upper.span (Text.upper source) = n.span source := by
  rw [span, span, start, start, spelling_upper, following_upper, ← Text.upper_append,
    Text.byteSize_upper, Text.byteSize_upper, Text.byteSize_upper]

end Node

/-- The place in the upper case of a source. -/
def Place.upper : Place → Place
  | start t => start (Text.upper t)
  | finish t => finish (Text.upper t)

/-- The fault with its texts in upper case. -/
def Fault.upper : Fault → Fault
  | expected c found => expected c (Text.upper found)
  | unterminated c delimiter place => unterminated c delimiter place.upper
  | trailing found => trailing (Text.upper found)
  | tooDeep place => tooDeep (Text.upper place)

/-- The error with the text that was found in upper case. -/
def ParseError.upper : ParseError → ParseError
  | expected c found offset => expected c (Text.upper found) offset
  | unterminated c delimiter offset => unterminated c delimiter offset
  | trailingInput found offset => trailingInput (Text.upper found) offset
  | tooDeep limit offset => tooDeep limit offset

/-- Letters of either case take one byte, so an error stays where it is. -/
theorem Fault.locate_upper (limit size : Nat) (f : Fault) :
    f.upper.locate limit size = (f.locate limit size).upper := by
  cases f with
  | unterminated c delimiter place => cases place <;> simp [upper, locate, ParseError.upper,
      Place.upper, Place.offset]
  | _ => simp [upper, locate, ParseError.upper, Place.offset]

/-- The correspondence of a source and its upper case. Faults correspond as well. -/
def letterCase : Correspondence where
  text := fun t u => u = Text.upper t
  node := fun n m => m = n.upper
  room := Eq
  fault := fun f g => g = f.upper
  excused := fun _ => False

namespace LetterCase

variable {c : Category} {p : Char → Bool} {r s : Recognizer Node} {u v : Recognizer (List Node)}

theorem nodes_iff {ns ms : List Node} : letterCase.nodes ns ms ↔ ms = ns.map Node.upper := by
  constructor
  · intro h
    induction h with
    | nil => rfl
    | cons hn _ ih => rw [List.map_cons, ← ih, show _ = _ from hn]
  · rintro rfl
    induction ns with
    | nil => exact .nil
    | cons n ns ih => exact .cons rfl ih

section Terminals

/-- A leaf over a text and a leaf over its upper case. -/
theorem leaf_matches (c : Category) {w w' : Text} (t : Text) (h : Text.upper w = w') :
    letterCase.Matches letterCase.node (.found (Node.leaf c w t) t)
      (.found (Node.leaf c w' (Text.upper t)) (Text.upper t)) := by
  subst h
  exact .found (Node.leaf_upper c w t).symm rfl

theorem run_agrees (hp : Text.CaseBlind p) :
    letterCase.Agrees letterCase.node (run c p) (run c p) := by
  rintro t _ rfl
  unfold run
  rw [Text.takeWhile_upper hp, Text.dropWhile_upper hp]
  cases t.takeWhile p with
  | nil => exact .absent
  | cons x w => exact leaf_matches _ _ rfl

theorem word_agrees {accept : Text → Bool} (haccept : ∀ w, accept (Text.upper w) = accept w) :
    letterCase.Agrees letterCase.node (word c accept) (word c accept) := by
  rintro t _ rfl
  have hempty : (Text.upper (t.takeWhile Char.isAlphanum)).isEmpty =
      (t.takeWhile Char.isAlphanum).isEmpty := List.isEmpty_map
  simp only [word_eq, Text.takeWhile_upper Text.caseBlind_isAlphanum,
    Text.dropWhile_upper Text.caseBlind_isAlphanum, haccept, hempty]
  split
  · exact leaf_matches _ _ rfl
  · exact .absent

theorem single_agrees (hp : Text.CaseBlind p) :
    letterCase.Agrees letterCase.node (single c p) (single c p) := by
  rintro t _ rfl
  cases t with
  | nil => exact .absent
  | cons x t =>
      simp only [Text.upper_cons, single, hp x]
      split
      · exact leaf_matches c t rfl
      · exact .absent

theorem oneOf_agrees (words : List Text) :
    letterCase.Agrees letterCase.node (oneOf words c) (oneOf words c) := by
  apply word_agrees
  intro w
  simp only [Text.sameWord_upper]

theorem hexBlob_agrees : letterCase.Agrees letterCase.node hexBlob hexBlob := by
  rintro t _ rfl
  unfold hexBlob
  rw [Text.any_head?_upper Text.caseBlind_isHexDigit]
  split
  · exact run_agrees Text.caseBlind_isBlobChar t _ rfl
  · exact .absent

theorem mixedBlob_agrees (length : Nat) :
    letterCase.Agrees letterCase.node (mixedBlob length) (mixedBlob length) := by
  apply hexBlob_agrees.filter
  rintro t n _ rest _ _ rfl rfl
  rw [Node.spelling_upper, Text.length_upper, isMixed_upper]

theorem blobBeyond_agrees (hr : letterCase.Agrees letterCase.node r r) :
    letterCase.Agrees letterCase.node (blobBeyond r) (blobBeyond r) := by
  intro t u ht
  apply (hr t u ht).bind
  rintro n _ rest rest' _ _ rfl _
  rw [Node.spelling_upper, Text.length_upper]
  exact mixedBlob_agrees _ t u ht

theorem operator_agrees : letterCase.Agrees letterCase.node operator operator := by
  rintro t _ rfl
  have hcomparison : Text.CaseBlind fun c => ['<', '>', '!'].contains c :=
    Text.caseBlind_of_all (by decide)
  have hequals := Text.head?_upper_eq (x := '=') (Text.caseBlind_eq (by decide))
  cases t with
  | nil => exact .absent
  | cons x t =>
      rw [Text.upper_cons]
      by_cases hx : x ∈ ['<', '>', '!']
      · have hupper : x.toUpper = x := Text.toUpper_of_mem (by decide) hx
        rw [hupper]
        by_cases hpair : t.head? = some '='
        · obtain ⟨t, rfl⟩ := List.head?_eq_some_iff.mp hpair
          rw [Text.upper_cons, show Char.toUpper '=' = '=' from rfl, operator_pair hx,
            operator_pair hx]
          exact leaf_matches _ t (congrArg (fun y => [y, '=']) hupper)
        · have hpair' := mt (hequals t).mp hpair
          by_cases hsingle : x ∈ ['<', '>']
          · rw [operator_single hsingle hpair, operator_single hsingle hpair']
            exact leaf_matches _ t (congrArg (fun y => [y]) hupper)
          · rw [operator_eq_absent hsingle fun _ => hpair,
              operator_eq_absent hsingle fun _ => hpair']
            exact .absent
      · rw [operator_eq_absent_of_notMem hx,
          operator_eq_absent_of_notMem (mt hcomparison.toUpper_mem_iff.mp hx)]
        exact .absent

theorem itemNameCaseSensitive_agrees :
    letterCase.Agrees letterCase.node itemNameCaseSensitive itemNameCaseSensitive := by
  rintro t _ rfl
  have hquote : Text.CaseBlind fun c => c == '"' := Text.caseBlind_eq (by decide)
  have hother : Text.CaseBlind fun c => c != '"' := fun c => congrArg not (hquote c)
  by_cases hopen : t.head? = some '"'
  · obtain ⟨t, rfl⟩ := List.head?_eq_some_iff.mp hopen
    have hupper : Char.toUpper '"' = '"' := rfl
    have hempty : (Text.upper (t.takeWhile (· != '"'))).isEmpty =
        (t.takeWhile (· != '"')).isEmpty := List.isEmpty_map
    simp only [Text.upper_cons, hupper, itemNameCaseSensitive, itemNameCaseSensitiveUnder,
      Text.takeWhile_upper hother, Text.dropWhile_upper hother, hempty,
      Text.all_upper Text.caseBlind_isAlphanum]
    cases t.dropWhile (· != '"') with
    | nil => exact .broken rfl
    | cons x rest =>
        simp only [Text.upper_cons]
        split
        · exact leaf_matches _ rest (by simp [hupper])
        · exact .absent
  · rw [itemNameCaseSensitive_eq_absent hopen,
      itemNameCaseSensitive_eq_absent (mt (Text.head?_upper_eq hquote t).mp hopen)]
    exact .absent

theorem inputCharacters_agrees :
    letterCase.Agrees letterCase.node inputCharacters inputCharacters := by
  rintro t _ rfl
  unfold inputCharacters
  rw [splitQuoted_upper]
  obtain ⟨body, rest⟩ := splitQuoted t
  cases body with
  | nil => exact .absent
  | cons x body => exact leaf_matches _ _ rfl

end Terminals

theorem node_agrees (hu : letterCase.Agrees letterCase.nodes u v) :
    letterCase.Agrees letterCase.node (node c u) (node c v) := by
  intro t t' ht
  apply (hu t t' ht).bind
  rintro ns ms rest _ _ _ hns rfl
  obtain rfl := nodes_iff.mp hns
  refine .found ?_ rfl
  exact ((Node.branch_upper _ _ _).trans (by rw [Node.chain_upper])).symm

theorem wrap_agrees (hr : letterCase.Agrees letterCase.node r s) :
    letterCase.Agrees letterCase.node (wrap c r) (wrap c s) :=
  node_agrees hr.one

section Values

theorem itemName_agrees : letterCase.Agrees letterCase.node itemName itemName := by
  apply wrap_agrees
  apply itemNameCaseSensitive_agrees.orElse
  apply word_agrees
  intro w
  rw [Text.any_head?_upper Text.caseBlind_isDigit, isClauseWord_upper]

theorem quote_agrees : letterCase.Agrees letterCase.node quote quote :=
  single_agrees (Text.caseBlind_eq (by decide))

theorem string_agrees : letterCase.Agrees letterCase.node Grammar.string Grammar.string := by
  have hclose : letterCase.Agrees letterCase.node
      (quote.orFault fun t => .unterminated .string '\'' (.start t))
      (quote.orFault fun t => .unterminated .string '\'' (.start t)) :=
    quote_agrees.orFault fun t t' ht => .inr (congrArg (Fault.unterminated _ _)
      (congrArg Place.start ht))
  exact node_agrees ((quote_agrees.one.seq inputCharacters_agrees.one.optional).seq hclose.one)

theorem number_agrees : letterCase.Agrees letterCase.node number number :=
  run_agrees Text.caseBlind_isDigit

theorem placeholder_agrees : letterCase.Agrees letterCase.node placeholder placeholder :=
  single_agrees (Text.caseBlind_eq (by decide))

theorem literal_agrees : letterCase.Agrees letterCase.node literal literal :=
  wrap_agrees ((((blobBeyond_agrees number_agrees).orElse number_agrees).orElse
    string_agrees).orElse hexBlob_agrees)

end Values

section Laws

/-- The symbols that bear on the next name are no letters. -/
theorem afterSymbol_upper (context : NameContext) (s : Text) :
    context.afterSymbol (Text.upper s) = context.afterSymbol s := by
  have hopen : ∀ {c : Char}, c.toUpper = '(' ↔ c = '(' :=
    Text.CaseBlind.toUpper_eq_iff (Text.caseBlind_eq (by decide))
  have hclose : ∀ {c : Char}, c.toUpper = ')' ↔ c = ')' :=
    Text.CaseBlind.toUpper_eq_iff (Text.caseBlind_eq (by decide))
  have hcomma : ∀ {c : Char}, c.toUpper = ',' ↔ c = ',' :=
    Text.CaseBlind.toUpper_eq_iff (Text.caseBlind_eq (by decide))
  rcases s with _ | ⟨c, _ | ⟨d, s⟩⟩
  · rfl
  · simp only [Text.upper_cons, Text.upper_nil, NameContext.afterSymbol]
    cases context.list <;> split <;> simp_all
  · simp [NameContext.afterSymbol]

theorem after_upper (context : NameContext) (n : Node) :
    context.after n.upper = context.after n := by
  rw [NameContext.after, Node.category_upper, Node.spelling_upper, afterSymbol_upper,
    NameContext.after]

theorem keywordsOf_upper (n : Node) : keywordsOf n.upper = keywordsOf n := by
  have hcategory : (fun m : Node => decide (m.category = .reservedWord)) ∘ Node.upper =
      fun m => decide (m.category = .reservedWord) :=
    funext fun m => by rw [Function.comp, Node.category_upper]
  have hword : (fun m : Node => Keyword.ofText? m.spelling) ∘ Node.upper =
      fun m => Keyword.ofText? m.spelling :=
    funext fun m => by rw [Function.comp, Node.spelling_upper, Keyword.ofText?_upper]
  rw [keywordsOf, keywordsOf, Node.children_upper, List.filter_map, List.filterMap_map,
    hcategory, hword]

theorem commandWord_agrees : letterCase.Agrees letterCase.node commandWord commandWord :=
  word_agrees fun w => by rw [Keyword.ofText?_upper]

/-- Reading respects the case of letters. -/
theorem lawful : letterCase.Lawful where
  nil_iff := by
    rintro t _ rfl
    exact Text.upper_eq_nil.symm
  dropLayout := by
    rintro t _ rfl
    exact Text.dropWhile_upper Text.caseBlind_isLayout t
  room := by
    rintro k _ rfl
    cases k with
    | zero => exact Or.inl ⟨rfl, rfl⟩
    | succ k => exact Or.inr (Or.inl ⟨k, k, rfl, rfl, rfl⟩)
  expected := by
    rintro c t _ rfl
    exact Or.inr rfl
  unterminated := by
    rintro c x t _ rfl
    exact Or.inr rfl
  trailing := by
    rintro t _ rfl
    exact Or.inr rfl
  tooDeep := by
    rintro t _ rfl
    exact Or.inr rfl
  linked := by
    rintro p q n _ rfl
    exact (Node.linked_upper p q n).symm
  branch := by
    rintro c ns ms rest _ _ _ hns rfl
    obtain rfl := nodes_iff.mp hns
    exact (Node.branch_upper c ns rest).symm
  after := by
    rintro n _ rfl context
    exact (after_upper context n).symm
  reservedWord := by
    rintro n _ rfl
    rw [Node.category_upper, Node.spelling_upper, Text.upper_upper]
    exact ⟨Iff.rfl, fun _ => rfl⟩
  keywordsOf := by
    rintro n _ rfl
    exact (keywordsOf_upper n).symm
  whitespace := run_agrees Text.caseBlind_isLayout
  symbol := single_agrees Text.caseBlind_isSymbol
  operator := operator_agrees
  commandWord := commandWord_agrees
  whereKeyword := oneOf_agrees _
  conjunction := oneOf_agrees _
  delimiter := by
    intro x hx c _
    have hpunctuation : punctuation.all (fun x => Text.lowerLetters.all fun c =>
        (c.toUpper == x) == (c == x)) = true := by decide
    exact single_agrees (Text.caseBlind_eq (List.all_eq_true.mp hpunctuation x hx))
  itemName := itemName_agrees
  blobBeyondName := blobBeyond_agrees itemName_agrees
  plainValue := placeholder_agrees.orElse literal_agrees

end Laws

end LetterCase

end QueryTree
