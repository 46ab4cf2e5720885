import QueryTree.Grammar.Command
import QueryTree.Proofs.Derivation.Phrase

/-!
# The roles of names by their positions

What the name of an item refers to can be told from the keywords that open the command and
from the items before it, without a state that is carried along. The first item may name a
table. Columns open the command and each of its parts between commas, and they stand in the
list after a table name: from the first opening parenthesis to the closing one that matches
it. The context that a reader keeps of a command is told by these positions at every item.
-/

namespace QueryTree

namespace Roles

/-- An opening parenthesis as an item. -/
def opening : Label := (.symbol, ['('])

/-- A closing parenthesis as an item. -/
def closing : Label := (.symbol, [')'])

/-- A comma as an item. -/
def comma : Label := (.symbol, [','])

/-- Whether the first item names a table and no parenthesis has been opened since. The next
one opens the list of columns. -/
def AwaitsList (before : List Label) : Prop :=
  (∃ name, before.head? = some (.tableName, name)) ∧ opening ∉ before

/-- Whether the place after some items is in the list after the table name, with so many
parentheses open. -/
def InList (before : List Label) (depth : Nat) : Prop :=
  ∃ front inside, before = front ++ opening :: inside ∧ AwaitsList front ∧
    (∀ p, p <+: inside → p.count closing ≤ p.count opening) ∧
    inside.count opening + 1 = inside.count closing + depth

/-- The keywords directly before the name of a table. -/
def tableWords : List Keyword := [.INTO, .FROM, .UPDATE, .TABLE, .TRUNCATE]

/-- The keywords whose names refer to columns. -/
def columnWords : List Keyword := [.SELECT, .SET, .BY, .DELETE]

/-- Whether a word is one of some keywords, in any case. -/
def IsOneOf (ks : List Keyword) (w : Text) : Prop :=
  ∃ k ∈ ks, Text.upper w = k.spelling

/-- Whether a name after some items refers to a table. -/
def NamesTable (words : List Text) (before : List Label) : Prop :=
  before = [] ∧ (∃ w ∈ words, IsOneOf tableWords w) ∧
    ∃ w, words.getLast? = some w ∧ IsOneOf (.EXISTS :: tableWords) w

/-- Whether a name after some items refers to a column, unless it refers to a table. -/
def NamesColumn (words : List Text) (before : List Label) : Prop :=
  ((∃ w ∈ words, IsOneOf columnWords w) ∧
    (before = [] ∨ ∃ front, before = front ++ [comma] ∧ ∀ depth, ¬InList front depth)) ∨
  (InList before 1 ∧ ∃ front, before = front ++ [comma] ∨
    before = front ++ [opening] ∧ AwaitsList front)

section Lists

variable {before : List Label} {l : Label} {depth : Nat}

theorem not_awaitsList_nil : ¬AwaitsList [] := by
  rintro ⟨⟨name, hname⟩, _⟩
  cases hname

/-- A list is awaited from the table name on until it is opened. -/
theorem awaitsList_snoc :
    AwaitsList (before ++ [l]) ↔
      AwaitsList before ∧ l ≠ opening ∨ before = [] ∧ l.1 = .tableName := by
  cases before with
  | nil =>
      constructor
      · rintro ⟨⟨name, hname⟩, _⟩
        exact Or.inr ⟨rfl, congrArg Prod.fst (Option.some.inj hname)⟩
      · rintro (⟨h, _⟩ | ⟨_, hl⟩)
        · exact absurd h not_awaitsList_nil
        · refine ⟨⟨l.2, congrArg some (Prod.ext hl rfl)⟩, ?_⟩
          rw [List.nil_append, List.mem_singleton]
          rintro rfl
          cases hl
  | cons first before =>
      simp [AwaitsList, and_assoc, ne_comm]

theorem not_awaitsList_snoc_opening : ¬AwaitsList (before ++ [opening]) := by
  rw [awaitsList_snoc]
  rintro (⟨_, hl⟩ | ⟨_, hl⟩)
  · exact hl rfl
  · cases hl

theorem awaitsList_snoc_of_ne (htable : l.1 ≠ .tableName) (hopening : l ≠ opening) :
    AwaitsList (before ++ [l]) ↔ AwaitsList before := by
  rw [awaitsList_snoc]
  constructor
  · rintro (⟨h, _⟩ | ⟨_, hl⟩)
    · exact h
    · exact absurd hl htable
  · exact fun h => Or.inl ⟨h, hopening⟩

/-- In the list at least its own parenthesis is open. -/
theorem InList.pos (h : InList before depth) : 0 < depth := by
  obtain ⟨_, inside, _, _, hopen, hdepth⟩ := h
  have := hopen inside List.prefix_rfl
  omega

theorem not_inList_nil : ¬InList [] depth := by
  rintro ⟨front, inside, hbefore, _⟩
  simp at hbefore

/-- Where the list is after one more item. The item opens it, or the list has been open and
is not closed by the item. -/
theorem inList_snoc :
    InList (before ++ [l]) depth ↔
      AwaitsList before ∧ l = opening ∧ depth = 1 ∨
        0 < depth ∧ ∃ depth', InList before depth' ∧
          [l].count opening + depth' = [l].count closing + depth := by
  constructor
  · intro h
    have hpos := h.pos
    obtain ⟨front, inside, hbefore, hfront, hopen, hdepth⟩ := h
    rcases List.eq_nil_or_concat inside with rfl | ⟨inside, l', rfl⟩
    · obtain ⟨rfl, hl⟩ := List.append_inj' hbefore rfl
      have hdepth : depth = 1 := by simpa using hdepth.symm
      exact Or.inl ⟨hfront, List.singleton_inj.mp hl, hdepth⟩
    · rw [List.concat_eq_append] at hbefore hopen hdepth
      rw [← List.cons_append, ← List.append_assoc] at hbefore
      obtain ⟨rfl, hl⟩ := List.append_inj' hbefore rfl
      obtain rfl := List.singleton_inj.mp hl
      -- Before the last item at least the list itself is open, so the depth there is no
      -- truncated difference.
      have hinside := hopen inside (List.prefix_append inside [l])
      rw [List.count_append, List.count_append] at hdepth
      refine Or.inr ⟨hpos, inside.count opening + 1 - inside.count closing,
        ⟨front, inside, rfl, hfront, fun p hp => hopen p (hp.trans (List.prefix_append _ _)), ?_⟩,
        ?_⟩
      · omega
      · omega
  · rintro (⟨hfront, rfl, rfl⟩ | ⟨hpos, depth', ⟨front, inside, rfl, hfront, hopen, hdepth⟩, hl⟩)
    · refine ⟨before, [], rfl, hfront, fun p hp => ?_, rfl⟩
      rw [List.prefix_nil.mp hp]
      exact Nat.le_refl _
    · refine ⟨front, inside ++ [l], by simp, hfront, fun p hp => ?_, ?_⟩
      · rcases List.prefix_concat_iff.mp hp with rfl | hp
        · rw [List.count_append, List.count_append]
          omega
        · exact hopen p hp
      · rw [List.count_append, List.count_append]
        omega

theorem opening_ne_closing : opening ≠ closing := by
  simp [opening, closing]

theorem comma_ne_opening : comma ≠ opening := by
  simp [comma, opening]

theorem comma_ne_closing : comma ≠ closing := by
  simp [comma, closing]

theorem count_singleton_of_ne {m : Label} (h : l ≠ m) : [l].count m = 0 :=
  List.count_eq_zero_of_not_mem fun hm => h (List.mem_singleton.mp hm).symm

theorem inList_snoc_opening :
    InList (before ++ [opening]) depth ↔
      AwaitsList before ∧ depth = 1 ∨ ∃ depth', InList before depth' ∧ depth = depth' + 1 := by
  rw [inList_snoc, List.count_singleton_self, count_singleton_of_ne opening_ne_closing]
  constructor
  · rintro (⟨h, -, hdepth⟩ | ⟨_, depth', h, hdepth⟩)
    · exact Or.inl ⟨h, hdepth⟩
    · exact Or.inr ⟨depth', h, by omega⟩
  · rintro (⟨h, hdepth⟩ | ⟨depth', h, hdepth⟩)
    · exact Or.inl ⟨h, rfl, hdepth⟩
    · exact Or.inr ⟨by omega, depth', h, by omega⟩

theorem inList_snoc_closing :
    InList (before ++ [closing]) depth ↔ 0 < depth ∧ InList before (depth + 1) := by
  rw [inList_snoc, List.count_singleton_self,
    count_singleton_of_ne opening_ne_closing.symm]
  constructor
  · rintro (⟨_, hl, _⟩ | ⟨hpos, depth', h, hdepth⟩)
    · exact absurd hl.symm opening_ne_closing
    · obtain rfl : depth' = depth + 1 := by omega
      exact ⟨hpos, h⟩
  · rintro ⟨hpos, h⟩
    exact Or.inr ⟨hpos, depth + 1, h, by omega⟩

/-- An item other than a parenthesis stands in the list if the place before it does. -/
theorem inList_snoc_of_ne (hopening : l ≠ opening) (hclosing : l ≠ closing) :
    InList (before ++ [l]) depth ↔ InList before depth := by
  rw [inList_snoc, count_singleton_of_ne hopening, count_singleton_of_ne hclosing]
  constructor
  · rintro (⟨_, hl, _⟩ | ⟨_, depth', h, hdepth⟩)
    · exact absurd hl hopening
    · obtain rfl : depth' = depth := by omega
      exact h
  · exact fun h => Or.inr ⟨h.pos, depth, h, rfl⟩

variable {words : List Text}

theorem not_namesTable_snoc : ¬NamesTable words (before ++ [l]) := fun h =>
  List.append_ne_nil_of_right_ne_nil before (List.cons_ne_nil l []) h.1

theorem namesColumn_nil : NamesColumn words [] ↔ ∃ w ∈ words, IsOneOf columnWords w := by
  constructor
  · rintro (⟨h, _⟩ | ⟨h, _⟩)
    · exact h
    · exact absurd h not_inList_nil
  · exact fun h => Or.inl ⟨h, Or.inl rfl⟩

/-- A name refers to a column behind a comma or behind the parenthesis that opens the list. -/
theorem namesColumn_snoc :
    NamesColumn words (before ++ [l]) ↔
      l = comma ∧ ((∃ w ∈ words, IsOneOf columnWords w) ∧ (∀ depth, ¬InList before depth) ∨
        InList before 1) ∨
      l = opening ∧ AwaitsList before := by
  have hcomma : InList (before ++ [comma]) 1 ↔ InList before 1 :=
    inList_snoc_of_ne comma_ne_opening comma_ne_closing
  constructor
  · rintro (⟨hwords, hempty | ⟨front, hbefore, hfront⟩⟩ |
      ⟨hlist, front, hbefore | ⟨hbefore, hfront⟩⟩)
    · exact absurd hempty (List.append_ne_nil_of_right_ne_nil before (List.cons_ne_nil l []))
    · obtain ⟨rfl, hl⟩ := List.append_inj' hbefore rfl
      exact Or.inl ⟨List.singleton_inj.mp hl, Or.inl ⟨hwords, hfront⟩⟩
    · obtain ⟨rfl, hl⟩ := List.append_inj' hbefore rfl
      obtain rfl := List.singleton_inj.mp hl
      exact Or.inl ⟨rfl, Or.inr (hcomma.mp hlist)⟩
    · obtain ⟨rfl, hl⟩ := List.append_inj' hbefore rfl
      exact Or.inr ⟨List.singleton_inj.mp hl, hfront⟩
  · rintro (⟨rfl, ⟨hwords, hfront⟩ | hlist⟩ | ⟨rfl, hfront⟩)
    · exact Or.inl ⟨hwords, Or.inr ⟨before, rfl, hfront⟩⟩
    · exact Or.inr ⟨hcomma.mpr hlist, before, Or.inl rfl⟩
    · exact Or.inr ⟨inList_snoc_opening.mpr (Or.inl ⟨hfront, rfl⟩), before,
        Or.inr ⟨rfl, hfront⟩⟩

end Lists

section Words

theorem mem_tableWords {k : Keyword} : k ∈ tableWords ↔ k.opensTable = true := by
  cases k <;> simp [tableWords, Keyword.opensTable]

theorem mem_columnWords {k : Keyword} : k ∈ columnWords ↔ k.opensColumns = true := by
  cases k <;> simp [columnWords, Keyword.opensColumns]

/-- A word is one of some keywords if it spells one of them. -/
theorem isOneOf_iff {ks : List Keyword} {w : Text} :
    IsOneOf ks w ↔ ∃ k, Keyword.ofText? w = some k ∧ k ∈ ks := by
  constructor
  · rintro ⟨k, hk, hw⟩
    have hspelled : Keyword.ofText? w = some k :=
      (Keyword.ofText?_congr (hw.trans k.upper_spelling.symm)).trans k.ofText?_spelling
    exact ⟨k, hspelled, hk⟩
  · rintro ⟨k, hspelled, hk⟩
    exact ⟨k, hk, Keyword.upper_eq_of_ofText? hspelled⟩

theorem exists_isOneOf_iff {ks : List Keyword} {words : List Text} :
    (∃ w ∈ words, IsOneOf ks w) ↔ ∃ k ∈ words.filterMap Keyword.ofText?, k ∈ ks := by
  simp only [isOneOf_iff, List.mem_filterMap]
  constructor
  · rintro ⟨w, hw, k, hspelled, hk⟩
    exact ⟨k, ⟨w, hw, hspelled⟩, hk⟩
  · rintro ⟨k, ⟨w, hw, hspelled⟩, hk⟩
    exact ⟨w, hw, k, hspelled, hk⟩

end Words

end Roles

end QueryTree
