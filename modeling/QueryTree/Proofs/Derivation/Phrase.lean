import Mathlib.Computability.Language
import Mathlib.Order.CompletePartialOrder
import QueryTree.Grammar.Terminal
import QueryTree.Proofs.Tree.Tiling
import QueryTree.Value.Quoted

/-!
# The grammar of query trees

For every category, the sequences of parts that a node of the category is made of,
and what it spells. A node is well formed if its parts are such a sequence, cover
the node without gaps, and spell what the category allows.
-/

namespace QueryTree

open scoped Computability

/-- A part of a production, by its category and what it spells. -/
abbrev Label := Category × Text

/-- What a node is as a part of a production. -/
def Node.label (n : Node) : Label :=
  (n.category, n.spelling)

namespace Phrase

/-- One part of a category. -/
def part (c : Category) : Language Label :=
  {w | ∃ s, w = [(c, s)]}

/-- One part of a category with a condition on what it spells. -/
def word (c : Category) (accept : Text → Prop) : Language Label :=
  {w | ∃ s, accept s ∧ w = [(c, s)]}

/-- A phrase or nothing. -/
def maybe (l : Language Label) : Language Label :=
  1 + l

/-- Optional whitespace. -/
def gap : Language Label :=
  maybe (part .whitespace)

/-- A phrase after optional whitespace. -/
def spaced (l : Language Label) : Language Label :=
  gap * l

/-- The comma between elements. -/
def comma : Language Label :=
  word .symbol fun s => s = [',']

/-- `AND` or `OR`, in any case. -/
def conjunction : Language Label :=
  word .reservedWord fun s => Text.upper s = "AND".toList ∨ Text.upper s = "OR".toList

/-- An item of a command. -/
def item : Language Label :=
  part .arrayLiteral + part .mapLiteral + part .selectorItem + part .fieldName +
    part .tableName + part .symbol + part .reservedWordSequence

/-- A name with an optional second part after a dot. -/
def qualifiedName : Language Label :=
  part .itemName * maybe (part .accessor * part .itemName)

/-- Elements between two delimiters. -/
def collection (start element finish : Category) : Language Label :=
  part start *
    (maybe (spaced (part element) * (spaced comma * spaced (part element))∗) *
      spaced (part finish))

end Phrase

open Phrase in
/-- The sequences of parts that a node of a category is made of. -/
def Category.parts : Category → Language Label
  | .statement =>
    gap * part .command *
      maybe (spaced (part .condition) * maybe (spaced (part .command))) *
      maybe (spaced (part .terminator)) * gap
  | .command =>
    part .reservedWordSequence * ((spaced item)∗ * maybe (spaced (part .command)))
  | .reservedWordSequence =>
    part .reservedWord * (part .whitespace * part .reservedWord)∗
  | .selectorItem => qualifiedName + part .placeholderInject + part .literal
  | .fieldName | .tableName => qualifiedName
  | .itemName => part .itemNameCaseSensitive + part .itemNameCaseInsensitive
  | .literal => part .number + part .string + part .hexBlob
  | .string => part .quote * maybe (part .inputCharacters) * part .quote
  | .arrayLiteral => collection .arrayStart .selectorItem .arrayEnd
  | .mapLiteral => collection .mapStart .mapEntry .mapEnd
  | .mapEntry =>
    part .selectorItem * spaced (part .mapSeparator) * spaced (part .selectorItem)
  | .condition => part .whereKeyword * part .whitespace * part .conditionChain
  | .conditionChain =>
    part .conditionItem *
      (spaced conjunction * part .whitespace * part .conditionItem)∗
  | .conditionItem =>
    part .selectorItem * spaced (part .operator + part .symbol) * spaced (part .selectorItem)
  | _ => 1

/-- Whether the nodes of a category are made of parts. -/
def Category.isComposite : Category → Bool
  | .statement | .command | .reservedWordSequence | .selectorItem | .fieldName | .tableName
  | .itemName | .literal | .string | .arrayLiteral | .mapLiteral | .mapEntry | .condition
  | .conditionChain | .conditionItem => true
  | _ => false

/-- Whether a text is a run of characters of a class, of at least one character,
that the text after it does not go on with. -/
def Text.IsRun (p : Char → Bool) (w rest : Text) : Prop :=
  w ≠ [] ∧ (∀ c ∈ w, p c = true) ∧ ∀ c ∈ rest.head?, p c = false

/-- Whether a node of a category may spell a text in front of another text. -/
def Category.Spells : Category → Text → Text → Prop
  | .whitespace, w, rest => Text.IsRun Text.isLayout w rest
  | .chars, w, rest => Text.IsRun Char.isAlphanum w rest
  | .number, w, rest => Text.IsRun Char.isDigit w rest
  | .hexBlob, w, rest =>
    Text.IsRun Grammar.isBlobChar w rest ∧ ∀ c ∈ w.head?, Text.isHexDigit c = true
  | .reservedWord, w, rest =>
    Text.IsRun Char.isAlphanum w rest ∧ isReservedWord w = true
  | .whereKeyword, w, rest =>
    Text.IsRun Char.isAlphanum w rest ∧ Text.upper w = "WHERE".toList
  | .itemNameCaseInsensitive, w, rest =>
    Text.IsRun Char.isAlphanum w rest ∧ isClauseWord w = false ∧
      ∀ c ∈ w.head?, c.isDigit = false
  | .itemNameCaseSensitive, w, _ =>
    ∃ body, body ≠ [] ∧ (∀ c ∈ body, c.isAlphanum = true) ∧ w = '"' :: (body ++ ['"'])
  | .symbol, w, _ => ∃ c ∈ Grammar.symbols, w = [c]
  | .operator, w, _ =>
    w ∈ [['<', '='], ['>', '='], ['!', '='], ['<'], ['>']]
  | .accessor, w, _ => w = ['.']
  | .placeholderInject, w, _ => w = ['?']
  | .mapSeparator, w, _ => w = [':']
  | .terminator, w, _ => w = [';']
  | .arrayStart, w, _ => w = ['[']
  | .arrayEnd, w, _ => w = [']']
  | .mapStart, w, _ => w = ['\x7b']
  | .mapEnd, w, _ => w = ['\x7d']
  | .quote, w, _ => w = ['\'']
  | .inputCharacters, w, _ => ∃ s, s ≠ [] ∧ w = Text.doubleQuotes s
  | .string, w, rest => ∃ s, w = Text.quoted s ∧ rest.head? ≠ some '\''
  | _, _, _ => True

/-- Whether a node is well formed, its children aside. -/
structure Node.Formed (n : Node) : Prop where
  unwritten : n.replacement = none
  nonempty : n.spelling ≠ []
  tiled : n.Tiled
  parts : n.children.map label ∈ n.category.parts
  spells : n.category.Spells n.spelling n.following

theorem Node.Formed.linked {n : Node} (h : n.Formed) (p q : Option Nat) :
    (n.linked p q).Formed :=
  ⟨h.unwritten, h.nonempty, h.tiled, h.parts, h.spells⟩

namespace Phrase

variable {l m : Language Label}

@[simp] theorem label_mem_part {n : Node} {c : Category} :
    [n.label] ∈ part c ↔ n.category = c := by
  constructor
  · rintro ⟨s, hs⟩
    exact congrArg Prod.fst (List.singleton_inj.mp hs)
  · rintro rfl
    exact ⟨n.spelling, rfl⟩

@[simp] theorem label_mem_word {n : Node} {c : Category} {accept : Text → Prop} :
    [n.label] ∈ word c accept ↔ n.category = c ∧ accept n.spelling := by
  constructor
  · rintro ⟨s, hs, hw⟩
    obtain ⟨hc, rfl⟩ := Prod.mk.injEq .. ▸ List.singleton_inj.mp hw
    exact ⟨hc, hs⟩
  · rintro ⟨rfl, h⟩
    exact ⟨n.spelling, h, rfl⟩

theorem nil_notMem_mul_left (h : [] ∉ l) : [] ∉ l * m := by
  rintro ⟨a, ha, b, _, hab⟩
  obtain ⟨rfl, _⟩ := List.append_eq_nil_iff.mp hab
  exact h ha

theorem nil_notMem_mul_right (h : [] ∉ m) : [] ∉ l * m := by
  rintro ⟨a, _, b, hb, hab⟩
  obtain ⟨_, rfl⟩ := List.append_eq_nil_iff.mp hab
  exact h hb

theorem nil_notMem_add (hl : [] ∉ l) (hm : [] ∉ m) : [] ∉ l + m :=
  not_or.mpr ⟨hl, hm⟩

theorem nil_notMem_part (c : Category) : [] ∉ part c := by
  rintro ⟨s, hs⟩
  simp at hs

theorem nil_notMem_item : [] ∉ item :=
  nil_notMem_add (nil_notMem_add (nil_notMem_add (nil_notMem_add (nil_notMem_add (nil_notMem_add
    (nil_notMem_part _) (nil_notMem_part _)) (nil_notMem_part _)) (nil_notMem_part _))
      (nil_notMem_part _)) (nil_notMem_part _)) (nil_notMem_part _)

/-- Whether all parts of the phrases of a language have categories with a property. -/
def Over (P : Category → Prop) (l : Language Label) : Prop :=
  ∀ w ∈ l, ∀ x ∈ w, P x.1

variable {P : Category → Prop}

theorem Over.one : Over P 1 := by
  rintro w rfl x hx
  cases hx

theorem Over.part {c : Category} (h : P c) : Over P (Phrase.part c) := by
  rintro _ ⟨s, rfl⟩ x hx
  rw [List.mem_singleton.mp hx]
  exact h

theorem Over.word {c : Category} {accept : Text → Prop} (h : P c) :
    Over P (Phrase.word c accept) := by
  rintro _ ⟨s, _, rfl⟩ x hx
  rw [List.mem_singleton.mp hx]
  exact h

theorem Over.mul (hl : Over P l) (hm : Over P m) : Over P (l * m) := by
  rintro _ ⟨a, ha, b, hb, rfl⟩ x hx
  exact (List.mem_append.mp hx).elim (hl a ha x) (hm b hb x)

theorem Over.add (hl : Over P l) (hm : Over P m) : Over P (l + m) :=
  fun w hw => hw.elim (hl w) (hm w)

theorem Over.maybe (hl : Over P l) : Over P (Phrase.maybe l) := by
  rintro w (rfl | hw) x hx
  · simp at hx
  · exact hl w hw x hx

theorem Over.kstar (hl : Over P l) : Over P l∗ := by
  rintro _ ⟨ws, rfl, hws⟩ x hx
  obtain ⟨w, hw, hxw⟩ := List.mem_flatten.mp hx
  exact hl w (hws w hw) x hxw

theorem Over.spaced (hw : P .whitespace) (hl : Over P l) : Over P (Phrase.spaced l) :=
  (Over.part hw).maybe.mul hl

end Phrase

open Phrase in
/-- A node that is made of parts has some. -/
theorem Category.nil_notMem_parts {c : Category} (hc : c.isComposite = true) :
    [] ∉ c.parts := by
  have hname : [] ∉ qualifiedName := nil_notMem_mul_left (nil_notMem_part _)
  cases c with
  | statement =>
      exact nil_notMem_mul_left (nil_notMem_mul_left (nil_notMem_mul_left
        (nil_notMem_mul_right (nil_notMem_part _))))
  | selectorItem =>
      exact nil_notMem_add (nil_notMem_add hname (nil_notMem_part _)) (nil_notMem_part _)
  | fieldName => exact hname
  | tableName => exact hname
  | itemName => exact nil_notMem_add (nil_notMem_part _) (nil_notMem_part _)
  | literal =>
      exact nil_notMem_add (nil_notMem_add (nil_notMem_part _) (nil_notMem_part _))
        (nil_notMem_part _)
  | string => exact nil_notMem_mul_right (nil_notMem_part _)
  | command => exact nil_notMem_mul_left (nil_notMem_part _)
  | reservedWordSequence => exact nil_notMem_mul_left (nil_notMem_part _)
  | arrayLiteral => exact nil_notMem_mul_left (nil_notMem_part _)
  | mapLiteral => exact nil_notMem_mul_left (nil_notMem_part _)
  | conditionChain => exact nil_notMem_mul_left (nil_notMem_part _)
  | mapEntry => exact nil_notMem_mul_left (nil_notMem_mul_left (nil_notMem_part _))
  | conditionItem => exact nil_notMem_mul_left (nil_notMem_mul_left (nil_notMem_part _))
  | condition => exact nil_notMem_mul_right (nil_notMem_part _)
  | _ => cases hc

theorem Category.parts_eq_one {c : Category} (hc : c.isComposite = false) : c.parts = 1 := by
  cases c <;> first | rfl | cases hc

end QueryTree
