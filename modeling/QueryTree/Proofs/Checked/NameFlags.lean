import QueryTree.Grammar.NameContext
import QueryTree.Node.Basic

/-!
# Counting the parentheses of a list

What the next name of a command refers to can be told with flags and a counter of the open
parentheses of the list after a table name. The counter is a number of the machine: to count
below zero or past the greatest number is an error. Neither ever happens, and the flags and the
counter always agree with the context of the name.
-/

namespace QueryTree

namespace Checked

/-- The numbers of the machine are below this bound. -/
def wordLimit : Nat := Nat.pow 2 64

/-- A sum, unless it is too great. -/
def add? (a b : Nat) : Option Nat :=
  if a + b < wordLimit then some (a + b) else none

/-- A difference, unless it is negative. -/
def sub? (a b : Nat) : Option Nat :=
  if b ≤ a then some (a - b) else none

theorem add?_eq_some {a b : Nat} (h : a + b < wordLimit) : add? a b = some (a + b) :=
  if_pos h

theorem sub?_eq_some {a b : Nat} (h : b ≤ a) : sub? a b = some (a - b) :=
  if_pos h

end Checked

/-- What is remembered of a command about its names. -/
structure NameFlags where
  tablePending : Bool
  fields : Bool
  fieldExpected : Bool
  afterTable : Bool
  listDepth : Nat
  listOpen : Bool
deriving DecidableEq

namespace NameFlags

open Grammar Checked

/-- What is remembered at the first item of a command. -/
def ofKeywords (words : List Keyword) : NameFlags where
  tablePending := words.any Keyword.opensTable && NameContext.endsBeforeTable words
  fields := words.any Keyword.opensColumns
  fieldExpected := words.any Keyword.opensColumns
  afterTable := false
  listDepth := 0
  listOpen := false

/-- Whether the next item is inside the list after a table name. -/
def inList (flags : NameFlags) : Bool :=
  0 < flags.listDepth

/-- Whether the next name refers to a column, unless it names a table. -/
def column (flags : NameFlags) : Bool :=
  flags.fieldExpected || (flags.listDepth == 1 && flags.listOpen)

/-- The category of the next name. -/
def role (flags : NameFlags) : Category :=
  if flags.tablePending then .tableName
  else if flags.column then .fieldName
  else .selectorItem

/-- Takes note of a symbol. -/
def noteSymbol? (flags : NameFlags) (s : Text) : Option NameFlags :=
  match s with
  | ['('] =>
    if flags.listDepth = 0 ∧ flags.afterTable = true then
      some { flags with listDepth := 1, listOpen := true }
    else if 0 < flags.listDepth then
      (add? flags.listDepth 1).map fun depth =>
        { flags with listDepth := depth, listOpen := false }
    else some { flags with listOpen := false }
  | [','] => some { flags with listOpen := flags.listDepth == 1 }
  | [')'] =>
    if 0 < flags.listDepth then
      (sub? flags.listDepth 1).map fun depth =>
        { flags with
          listDepth := depth
          afterTable := if depth = 0 then false else flags.afterTable
          listOpen := false }
    else some { flags with listOpen := false }
  | _ => some { flags with listOpen := false }

/-- Takes note of an item. -/
def note? (flags : NameFlags) (item : Node) : Option NameFlags :=
  if item.category = .tableName then
    some { flags with
      tablePending := false, afterTable := true, listOpen := false, fieldExpected := false }
  else
    let expected := flags.fields && flags.listDepth == 0 && item.spelling == [',']
    let flags := { flags with tablePending := false, fieldExpected := expected }
    if item.category = .symbol then flags.noteSymbol? item.spelling
    else some { flags with listOpen := false }

/-- Takes note of a part of a command. Whitespace is no item. -/
def after? (flags : NameFlags) (part : Node) : Option NameFlags :=
  if part.category = .whitespace then some flags else flags.note? part

/-- Whether what is remembered agrees with the context of the next name. -/
structure Agrees (flags : NameFlags) (context : NameContext) : Prop where
  table : flags.tablePending = context.table
  columns : flags.fields = context.columns
  column : flags.column = context.column
  list : context.list =
    if flags.listDepth = 0 then if flags.afterTable then .awaited else .none
    else .inside (flags.listDepth - 1)
  /-- A table is named before any list. -/
  before : flags.tablePending = true → flags.listDepth = 0

theorem agrees_ofKeywords (words : List Keyword) :
    (ofKeywords words).Agrees (.ofKeywords words) := by
  refine ⟨rfl, rfl, ?_, rfl, fun _ => rfl⟩
  rw [column]
  exact Bool.or_false _

namespace Agrees

variable {flags : NameFlags} {context : NameContext} {part : Node}

theorem inList (h : flags.Agrees context) : flags.inList = context.inList := by
  rw [NameContext.inList, h.list, NameFlags.inList]
  rcases Nat.eq_zero_or_pos flags.listDepth with hdepth | hdepth
  · rw [if_pos hdepth, hdepth]
    cases flags.afterTable <;> rfl
  · rw [if_neg (Nat.ne_of_gt hdepth), decide_eq_true hdepth]

theorem role (h : flags.Agrees context) : flags.role = context.role := by
  rw [NameFlags.role, NameContext.role, h.table, h.column]

/-- What is remembered after a symbol that neither opens nor closes a parenthesis. -/
theorem afterSymbol_other {s : Text} (h : flags.Agrees context) (hopening : s ≠ ['('])
    (hclosing : s ≠ [')']) (hcomma : s ≠ [',']) :
    Agrees { flags with tablePending := false, fieldExpected := false, listOpen := false }
      (context.afterSymbol s) := by
  have hafter : context.afterSymbol s = { context with table := false, column := false } := by
    unfold NameContext.afterSymbol
    split <;> first | contradiction | rfl
  rw [hafter]
  exact ⟨rfl, h.columns, by simp [NameFlags.column], h.list, nofun⟩

/-- A parenthesis that is opened after a table name opens a list or is one more in a list. -/
theorem afterSymbol_opening (h : flags.Agrees context) (hsize : flags.listDepth + 1 < wordLimit) :
    ∃ next, noteSymbol? { flags with tablePending := false, fieldExpected := false } ['('] =
        some next ∧ next.Agrees (context.afterSymbol ['(']) ∧
      next.listDepth ≤ flags.listDepth + 1 := by
  obtain ⟨pending, fields, expected, afterTable, depth, isOpen⟩ := flags
  obtain ⟨table, columns, column, list⟩ := context
  obtain ⟨htable, hcolumns, hcolumn, hlist, hbefore⟩ := h
  simp only at htable hcolumns hcolumn hlist hsize
  subst htable hcolumns hcolumn hlist
  cases depth with
  | zero =>
      cases afterTable with
      | true => exact ⟨_, rfl, ⟨rfl, rfl, rfl, rfl, nofun⟩, Nat.le_refl _⟩
      | false => exact ⟨_, rfl, ⟨rfl, rfl, rfl, rfl, nofun⟩, Nat.zero_le _⟩
  | succ depth =>
      have hadd : add? (depth + 1) 1 = some (depth + 2) := add?_eq_some hsize
      refine ⟨⟨false, fields, false, afterTable, depth + 2, false⟩, by simp [noteSymbol?, hadd],
        ⟨rfl, rfl, ?_, rfl, nofun⟩, Nat.le_refl _⟩
      simp [NameFlags.column, NameContext.afterSymbol]

/-- A parenthesis that is closed in a list closes an inner one or the list. -/
theorem afterSymbol_closing (h : flags.Agrees context) :
    ∃ next, noteSymbol? { flags with tablePending := false, fieldExpected := false } [')'] =
        some next ∧ next.Agrees (context.afterSymbol [')']) ∧
      next.listDepth ≤ flags.listDepth := by
  obtain ⟨pending, fields, expected, afterTable, depth, isOpen⟩ := flags
  obtain ⟨table, columns, column, list⟩ := context
  obtain ⟨htable, hcolumns, hcolumn, hlist, hbefore⟩ := h
  simp only at htable hcolumns hcolumn hlist
  subst htable hcolumns hcolumn hlist
  cases depth with
  | zero =>
      cases afterTable with
      | true => exact ⟨_, rfl, ⟨rfl, rfl, rfl, rfl, nofun⟩, Nat.le_refl _⟩
      | false => exact ⟨_, rfl, ⟨rfl, rfl, rfl, rfl, nofun⟩, Nat.le_refl _⟩
  | succ depth =>
      have hsub : sub? (depth + 1) 1 = some depth := sub?_eq_some (Nat.le_add_left _ _)
      refine ⟨⟨false, fields, false, if depth = 0 then false else afterTable, depth, false⟩,
        by simp [noteSymbol?, hsub], ?_, Nat.le_succ _⟩
      cases depth with
      | zero => exact ⟨rfl, rfl, rfl, rfl, nofun⟩
      | succ depth => exact ⟨rfl, rfl, Bool.and_false _, rfl, nofun⟩

/-- A comma in a list begins its next element, and one outside begins the next part of the
command. -/
theorem afterSymbol_comma (h : flags.Agrees context) :
    Agrees { flags with
      tablePending := false
      fieldExpected := flags.fields && flags.listDepth == 0
      listOpen := flags.listDepth == 1 } (context.afterSymbol [',']) := by
  obtain ⟨pending, fields, expected, afterTable, depth, isOpen⟩ := flags
  obtain ⟨table, columns, column, list⟩ := context
  obtain ⟨htable, hcolumns, hcolumn, hlist, hbefore⟩ := h
  simp only at htable hcolumns hcolumn hlist
  subst htable hcolumns hcolumn hlist
  match depth with
  | 0 =>
      cases afterTable with
      | true => exact ⟨rfl, rfl, by simp [NameFlags.column, NameContext.afterSymbol], rfl, nofun⟩
      | false => exact ⟨rfl, rfl, by simp [NameFlags.column, NameContext.afterSymbol], rfl, nofun⟩
  | 1 => exact ⟨rfl, rfl, by simp [NameFlags.column, NameContext.afterSymbol], rfl, nofun⟩
  | depth + 2 => exact ⟨rfl, rfl, by simp [NameFlags.column, NameContext.afterSymbol], rfl, nofun⟩

/-- A symbol is taken note of without an error. -/
theorem afterSymbol (h : flags.Agrees context) {s : Text}
    (hsize : flags.listDepth + Text.byteSize s < wordLimit) :
    ∃ next, noteSymbol? { flags with
        tablePending := false
        fieldExpected := flags.fields && flags.listDepth == 0 && s == [','] } s = some next ∧
      next.Agrees (context.afterSymbol s) ∧
      next.listDepth ≤ flags.listDepth + Text.byteSize s := by
  by_cases hopening : s = ['(']
  · subst hopening
    have hexpected : (flags.fields && flags.listDepth == 0 && ['('] == [',']) = false :=
      Bool.and_false _
    rw [hexpected]
    exact h.afterSymbol_opening hsize
  · by_cases hclosing : s = [')']
    · subst hclosing
      have hexpected : (flags.fields && flags.listDepth == 0 && [')'] == [',']) = false :=
        Bool.and_false _
      rw [hexpected]
      obtain ⟨next, hnext, hagrees, hle⟩ := h.afterSymbol_closing
      exact ⟨next, hnext, hagrees, Nat.le_trans hle (Nat.le_add_right _ _)⟩
    · by_cases hcomma : s = [',']
      · subst hcomma
        have hexpected : (flags.fields && flags.listDepth == 0 && [','] == [',']) =
            (flags.fields && flags.listDepth == 0) := Bool.and_true _
        rw [hexpected]
        exact ⟨_, rfl, h.afterSymbol_comma, Nat.le_add_right _ _⟩
      · have hexpected : (flags.fields && flags.listDepth == 0 && s == [',']) = false := by
          rw [beq_false_of_ne hcomma, Bool.and_false]
        have hobserve : ∀ flags : NameFlags,
            flags.noteSymbol? s = some { flags with listOpen := false } := by
          intro flags
          unfold noteSymbol?
          split <;> first | contradiction | rfl
        rw [hexpected, hobserve]
        exact ⟨_, rfl, h.afterSymbol_other hopening hclosing hcomma, Nat.le_add_right _ _⟩

/-- An item is taken note of without an error. Only a table that is asked for is named, and
nothing but a symbol is a comma. -/
theorem note (h : flags.Agrees context) {item : Node} (hspace : item.category ≠ .whitespace)
    (htable : item.category = .tableName → context.table = true)
    (hcomma : item.category ≠ .symbol → item.spelling ≠ [','])
    (hsize : flags.listDepth + Text.byteSize item.spelling < wordLimit) :
    ∃ next, flags.note? item = some next ∧ next.Agrees (context.after item) ∧
      next.listDepth ≤ flags.listDepth + Text.byteSize item.spelling := by
  by_cases hname : item.category = .tableName
  · have hdepth : flags.listDepth = 0 := h.before (h.table.trans (htable hname))
    have hafter : context.after item =
        { context with table := false, column := false, list := .awaited } := by
      rw [NameContext.after, hname]
    rw [note?, if_pos hname, hafter]
    refine ⟨_, rfl, ⟨rfl, h.columns, ?_, ?_, nofun⟩, Nat.le_add_right _ _⟩
    · exact Bool.and_false _
    · rw [if_pos hdepth]
      rfl
  · rw [note?, if_neg hname]
    by_cases hsymbol : item.category = .symbol
    · have hafter : context.after item = context.afterSymbol item.spelling := by
        rw [NameContext.after, hsymbol]
      rw [hafter]
      simp only [hsymbol, if_true]
      exact h.afterSymbol hsize
    · have hafter : context.after item = { context with table := false, column := false } := by
        unfold NameContext.after
        split <;> first | contradiction | rfl
      have hexpected :
          (flags.fields && flags.listDepth == 0 && item.spelling == [',']) = false := by
        rw [beq_false_of_ne (hcomma hsymbol), Bool.and_false]
      rw [hafter]
      simp only [hsymbol, if_false, hexpected]
      exact ⟨_, rfl, ⟨rfl, h.columns, Bool.and_false _, h.list, nofun⟩, Nat.le_add_right _ _⟩

end Agrees

end NameFlags

end QueryTree
