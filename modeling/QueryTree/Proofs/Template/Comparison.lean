import QueryTree.Proofs.Template.Words

/-!
# Comparisons of query templates

A condition compares columns with bind markers, numbers and strings, and joins the
comparisons by `AND` and `OR`. Its nodes are those one would expect, whatever the columns
are called, whatever the strings contain and however many comparisons there are.
-/

namespace QueryTree

open Recognizer Grammar

/-- How the sides of a comparison are compared. -/
inductive Comparator where
  | equal
  | different
  | less
  | atMost
  | greater
  | atLeast

/-- What a column is compared with: a bind marker, a number or a string for any text. -/
inductive Operand where
  | mark
  | number (digits : Text) (nonempty : digits ≠ []) (digit : ∀ x ∈ digits, x.isDigit = true)
  | string (text : Text)

/-- A column, a comparator and what it is compared with. -/
structure Comparison where
  column : Identifier
  beforeOperator : Gap
  operator : Comparator
  afterOperator : Gap
  value : Operand

/-- A further comparison behind the word that joins it to those before. -/
structure Joined where
  before : Break
  conjunction : Spelled .AND ⊕ Spelled .OR
  after : Break
  comparison : Comparison

def Comparator.text : Comparator → Text
  | equal => ['=']
  | different => ['!', '=']
  | less => ['<']
  | atMost => ['<', '=']
  | greater => ['>']
  | atLeast => ['>', '=']

/-- Equality is a symbol, and any other comparator is an operator. -/
def Comparator.category : Comparator → Category
  | equal => .symbol
  | _ => .operator

def Operand.text : Operand → Text
  | mark => ['?']
  | number digits _ _ => digits
  | string text => Text.quoted text

def Operand.isMark : Operand → Bool
  | mark => true
  | _ => false

namespace Comparison

variable (c : Comparison)

def text : Text :=
  c.column.text ++ (c.beforeOperator.text ++ (c.operator.text ++
    (c.afterOperator.text ++ c.value.text)))

/-- The texts of a comparison that are told from one another. -/
def sides : List Text :=
  [c.column.text, c.operator.text, c.value.text]

/-- What follows the operator, up to a rest. -/
def valueText (rest : Text) : Text :=
  c.afterOperator.text ++ (c.value.text ++ rest)

/-- What follows the column, up to a rest. -/
def operatorText (rest : Text) : Text :=
  c.beforeOperator.text ++ (c.operator.text ++ c.valueText rest)

theorem text_append (rest : Text) : c.text ++ rest = c.column.text ++ c.operatorText rest := by
  simp [text, operatorText, valueText]

end Comparison

namespace Joined

variable (j : Joined)

/-- The word that joins the comparison to those before. -/
def word : Text :=
  j.conjunction.elim Spelled.text Spelled.text

def text : Text :=
  j.before.text ++ (j.word ++ (j.after.text ++ j.comparison.text))

end Joined

/-- Whether a text may follow a comparison: no name, number, blob or string goes on there. -/
structure ClosesValue (t : Text) : Prop where
  ends : EndsWord t
  hyphen : t.head? ≠ some '-'
  quote : t.head? ≠ some '\''

section Operands

variable {rest : Text}

/-- The node of a number or a string. -/
def literalNode (n : Node) (rest : Text) : Node :=
  Node.branch .selectorItem (Node.chain [Node.branch .literal (Node.chain [n]) rest]) rest

/-- The node of an operand in front of a rest. -/
def Operand.node (rest : Text) : Operand → Node
  | mark => markNode rest
  | number digits _ _ => literalNode (Node.leaf .number digits rest) rest
  | string text => literalNode (quotation text rest) rest

@[simp] theorem Operand.node_spelling (v : Operand) (rest : Text) :
    (v.node rest).spelling = v.text := by
  cases v <;>
    simp [node, markNode, literalNode, Node.branch, Node.map_spelling_chain, text, Node.leaf]

theorem isAlphanum_of_isDigit {x : Char} (h : x.isDigit = true) : x.isAlphanum = true := by
  rw [Char.isAlphanum, h, Bool.or_true]

theorem selectorItem_of_literal {t : Text} {n : Node} (hname : itemName t = .absent)
    (hmark : t.head? ≠ some '?')
    (h : literal t = .found (Node.branch .literal (Node.chain [n]) rest) rest) :
    selectorItem t = .found (literalNode n rest) rest := by
  rw [selectorItem, selector_of_itemName_absent _ hname]
  exact node_of_found (one_of_found ((orElse_of_absent (delimiter_eq_absent hmark)).trans h))

theorem literal_number {digits : Text} (hne : digits ≠ [])
    (hdigits : ∀ x ∈ digits, x.isDigit = true) (h : ClosesValue rest) :
    literal (digits ++ rest) = .found (Node.branch .literal
      (Node.chain [Node.leaf .number digits rest]) rest) rest := by
  have hrun : Text.IsRun Char.isDigit digits rest :=
    ⟨hne, hdigits, fun x hx => Bool.eq_false_of_not_eq_true fun hdigit => by
      have halnum := isAlphanum_of_isDigit hdigit
      rw [h.ends x hx] at halnum
      cases halnum⟩
  have hnumber : number (digits ++ rest) = .found (Node.leaf .number digits rest) rest :=
    run_append hrun
  have hblob : blobBeyond number (digits ++ rest) = .absent := by
    rw [blobBeyond, hnumber, Reading.bind_found]
    exact mixedBlob_eq_absent (length_takeWhile_isBlobChar_le digits h.ends h.hyphen)
  exact node_of_found (one_of_found (orElse_of_found (orElse_of_found
    ((orElse_of_absent hblob).trans hnumber))))

/-- A word that begins with a digit is no name. -/
theorem itemName_digits {digits : Text} (hne : digits ≠ [])
    (hdigits : ∀ x ∈ digits, x.isDigit = true) (h : EndsWord rest) :
    itemName (digits ++ rest) = .absent := by
  obtain ⟨x, w, rfl⟩ := List.exists_cons_of_ne_nil hne
  have hx : x.isDigit = true := hdigits x List.mem_cons_self
  have hrun : Text.IsRun Char.isAlphanum (x :: w) rest :=
    ⟨hne, fun y hy => isAlphanum_of_isDigit (hdigits y hy), h⟩
  have hquote : itemNameCaseSensitive (x :: w ++ rest) = .absent := by
    refine itemNameCaseSensitive_eq_absent ?_
    rintro ⟨⟩
    cases hx
  refine wrap_of_absent ((orElse_of_absent hquote).trans (word_eq_absent_of_refused hrun ?_))
  rw [List.head?_cons, Option.any_some, hx]
  rfl

theorem Operand.selectorItem_append (v : Operand) (h : ClosesValue rest) :
    selectorItem (v.text ++ rest) = .found (v.node rest) rest := by
  cases v with
  | mark => exact selector_mark _ rest
  | number digits hne hdigits =>
      refine selectorItem_of_literal (itemName_digits hne hdigits h.ends) ?_
        (literal_number hne hdigits h)
      obtain ⟨x, w, rfl⟩ := List.exists_cons_of_ne_nil hne
      have hx : x.isDigit = true := hdigits x List.mem_cons_self
      rintro ⟨⟩
      cases hx
  | string s =>
      refine selectorItem_of_literal (itemName_eq_absent ?_ ?_) ?_ (literal_quoted s h.quote)
      · rintro x ⟨⟩
        rfl
      · rintro ⟨⟩
      · rintro ⟨⟩

end Operands

section Items

variable {rest : Text}

theorem Comparator.exists_cons (o : Comparator) :
    ∃ x v, o.text = x :: v ∧ isPunctuation x = true := by
  cases o <;> exact ⟨_, _, rfl, rfl⟩

theorem Comparator.append (o : Comparator) (h : rest.head? ≠ some '=') :
    ((operator.orElse symbol).required .symbol) (o.text ++ rest) =
      .found (Node.leaf o.category o.text rest) rest := by
  refine required_of_found .symbol ?_
  cases o with
  | equal =>
      exact (orElse_of_absent (operator_eq_absent_of_notMem (by decide))).trans
        (symbol_cons (by decide) rest)
  | different => exact orElse_of_found (operator_pair (by decide) rest)
  | less => exact orElse_of_found (operator_single (by decide) h)
  | atMost => exact orElse_of_found (operator_pair (by decide) rest)
  | greater => exact orElse_of_found (operator_single (by decide) h)
  | atLeast => exact orElse_of_found (operator_pair (by decide) rest)

/-- An operand begins neither with whitespace nor with what an operator goes on with. -/
theorem Operand.forall_head? (v : Operand) (rest : Text) :
    ∀ x ∈ (v.text ++ rest).head?, Text.isLayout x = false ∧ x ≠ '=' := by
  intro x hx
  cases v with
  | mark =>
      obtain rfl := Option.some.inj hx
      decide
  | number digits hne hdigits =>
      obtain ⟨y, w, rfl⟩ := List.exists_cons_of_ne_nil hne
      obtain rfl := Option.some.inj hx
      have hdigit := hdigits y List.mem_cons_self
      refine ⟨isLayout_eq_false_of_isAlphanum (isAlphanum_of_isDigit hdigit), ?_⟩
      rintro rfl
      cases hdigit
  | string s =>
      obtain rfl := Option.some.inj hx
      decide

namespace Comparison

theorem isLayout_head?_operator (c : Comparison) (rest : Text) :
    ∀ x ∈ (c.operator.text ++ c.valueText rest).head?, Text.isLayout x = false := by
  obtain ⟨x, v, hx, hmark⟩ := c.operator.exists_cons
  rw [hx]
  exact isLayout_head?_punctuation hmark _

theorem isLayout_head?_value (c : Comparison) (rest : Text) :
    ∀ x ∈ (c.value.text ++ rest).head?, Text.isLayout x = false :=
  fun x hx => (c.value.forall_head? rest x hx).1

/-- The parts of a comparison in front of a rest. -/
def parts (c : Comparison) (rest : Text) : List Node :=
  [(Reference.plain c.column).node .selectorItem (c.operatorText rest)] ++
    (gapNodes (c.operatorText rest) ++
      [Node.leaf c.operator.category c.operator.text (c.valueText rest)]) ++
    (gapNodes (c.valueText rest) ++ [c.value.node rest])

/-- The node of a comparison in front of a rest. -/
def node (c : Comparison) (rest : Text) : Node :=
  Node.branch .conditionItem (Node.chain (c.parts rest)) rest

theorem conditionItem_append (c : Comparison) (demand : Demand) (h : ClosesValue rest) :
    conditionItemUnder demand (c.text ++ rest) = .found (c.node rest) rest := by
  obtain ⟨x, v, hx, hmark⟩ := c.operator.exists_cons
  have hcloses : ClosesName (c.operatorText rest) := by
    rw [operatorText, hx]
    exact c.beforeOperator.closesName hmark _
  have hvalue : (c.valueText rest).head? ≠ some '=' := fun hhead =>
    c.afterOperator.forall_head? (by rintro y hy rfl; cases hy)
      (fun y hy => (c.value.forall_head? rest y hy).2) '=' hhead rfl
  rw [c.text_append]
  exact node_of_found (seq_of_founds (seq_of_founds
    (one_of_found (under_of_found demand .conditionItem
      ((Reference.plain c.column).selector_append .selectorItem hcloses)))
    (c.beforeOperator.spaced_append_found (c.isLayout_head?_operator rest)
      (c.operator.append hvalue)))
    (c.afterOperator.spaced_append_found (c.isLayout_head?_value rest)
      (required_of_found .selectorItem (c.value.selectorItem_append h))))

end Comparison

end Items

end QueryTree
