import QueryTree.Proofs.Roles.ColumnList

/-!
# The context of a name and the items before it

The context that is carried from item to item says of the next place what the items before
it say by their positions. It does so at the first place, and each item keeps it so.
-/

namespace QueryTree

open Grammar Roles

namespace Grammar

namespace ColumnList

/-- The number of parentheses that are open in the list, and zero outside of it. -/
def depth : ColumnList → Nat
  | .none | .awaited => 0
  | .inside nesting => nesting + 1

/-- What an opening parenthesis makes of the list. -/
def opened : ColumnList → ColumnList
  | .none => .none
  | .awaited => .inside 0
  | .inside nesting => .inside (nesting + 1)

/-- What a closing parenthesis makes of the list. -/
def closed : ColumnList → ColumnList
  | .inside 0 => .none
  | .inside (nesting + 1) => .inside nesting
  | list => list

variable {list : ColumnList}

theorem opened_ne_awaited : list.opened ≠ .awaited := by
  cases list <;> exact nofun

theorem closed_eq_awaited : list.closed = .awaited ↔ list = .awaited := by
  cases list with
  | inside nesting => cases nesting <;> simp [closed]
  | _ => rfl

theorem depth_opened {d : Nat} :
    0 < d ∧ list.opened.depth = d ↔
      list = .awaited ∧ d = 1 ∨ ∃ d', (0 < d' ∧ list.depth = d') ∧ d = d' + 1 := by
  cases list with
  | none =>
      simp [opened, depth]
      omega
  | awaited =>
      simp [opened, depth]
      omega
  | inside nesting =>
      simp [opened, depth, eq_comm]
      omega

theorem depth_closed : list.closed.depth = list.depth - 1 := by
  cases list with
  | inside nesting => cases nesting <;> rfl
  | _ => rfl

end ColumnList

namespace NameContext

variable (context : NameContext) (s : Text)

@[simp] theorem afterSymbol_table : (context.afterSymbol s).table = false := by
  unfold afterSymbol
  split <;> rfl

@[simp] theorem afterSymbol_columns : (context.afterSymbol s).columns = context.columns := by
  unfold afterSymbol
  split <;> rfl

theorem afterSymbol_opening :
    context.afterSymbol ['('] = { context with
      table := false, column := context.list = .awaited, list := context.list.opened } := by
  obtain ⟨_, _, _, list⟩ := context
  cases list <;> rfl

theorem afterSymbol_closing :
    context.afterSymbol [')'] = { context with
      table := false, column := false, list := context.list.closed } := by
  obtain ⟨_, _, _, list⟩ := context
  cases list with
  | inside nesting => cases nesting <;> rfl
  | _ => rfl

theorem afterSymbol_comma :
    context.afterSymbol [','] = { context with
      table := false,
      column := if context.list.depth = 0 then context.columns else context.list.depth = 1 } := by
  obtain ⟨_, _, _, list⟩ := context
  cases list with
  | inside nesting => cases nesting <;> rfl
  | _ => rfl

theorem afterSymbol_other {s : Text} (hopening : s ≠ ['(']) (hclosing : s ≠ [')'])
    (hcomma : s ≠ [',']) :
    context.afterSymbol s = { context with table := false, column := false } := by
  unfold afterSymbol
  split <;> first | rfl | contradiction

end NameContext

end Grammar

namespace Roles

variable {words : List Text} {before : List Label} {context : NameContext}

/-- Whether a context says of the place after some items what these items say. -/
structure Tracks (words : List Text) (before : List Label) (context : NameContext) : Prop where
  table : context.table = true ↔ NamesTable words before
  columns : context.columns = true ↔ ∃ w ∈ words, IsOneOf columnWords w
  column : context.column = true ↔ NamesColumn words before
  awaited : context.list = .awaited ↔ AwaitsList before
  inside : ∀ depth, InList before depth ↔ 0 < depth ∧ context.list.depth = depth

theorem getLast?_filterMap_ofText? (hwords : ∀ w ∈ words, isReservedWord w = true) :
    (words.filterMap Keyword.ofText?).getLast? = words.getLast?.bind Keyword.ofText? := by
  rcases List.eq_nil_or_concat words with rfl | ⟨front, w, rfl⟩
  · rfl
  · rw [List.concat_eq_append] at hwords ⊢
    obtain ⟨k, hk⟩ := Option.isSome_iff_exists.mp (hwords w (by simp))
    rw [List.filterMap_append, List.filterMap_cons_some hk, List.filterMap_nil,
      List.getLast?_concat, List.getLast?_concat, Option.bind_some, hk]

/-- At its first item a command is told by its keywords. -/
theorem tracks_ofKeywords (hwords : ∀ w ∈ words, isReservedWord w = true) :
    Tracks words [] (.ofKeywords (words.filterMap Keyword.ofText?)) := by
  have hcolumns : (words.filterMap Keyword.ofText?).any Keyword.opensColumns = true ↔
      ∃ w ∈ words, IsOneOf columnWords w := by
    rw [exists_isOneOf_iff, List.any_eq_true]
    simp only [mem_columnWords]
  have htables : (words.filterMap Keyword.ofText?).any Keyword.opensTable = true ↔
      ∃ w ∈ words, IsOneOf tableWords w := by
    rw [exists_isOneOf_iff, List.any_eq_true]
    simp only [mem_tableWords]
  have hlast : NameContext.endsBeforeTable (words.filterMap Keyword.ofText?) = true ↔
      ∃ w, words.getLast? = some w ∧ IsOneOf (.EXISTS :: tableWords) w := by
    rw [NameContext.endsBeforeTable, getLast?_filterMap_ofText? hwords]
    simp only [isOneOf_iff, List.mem_cons, mem_tableWords]
    cases words.getLast? with
    | none => simp
    | some w => cases hspelled : Keyword.ofText? w <;> simp [hspelled, or_comm]
  constructor
  · rw [NamesTable, ← htables, ← hlast]
    exact Bool.and_eq_true_iff.trans (and_iff_right rfl).symm
  · exact hcolumns
  · rw [namesColumn_nil]
    exact hcolumns
  · exact ⟨nofun, fun h => absurd h not_awaitsList_nil⟩
  · exact fun depth => ⟨fun h => absurd h not_inList_nil, fun ⟨hpos, hdepth⟩ =>
      absurd hdepth (Nat.ne_of_lt hpos)⟩

theorem Tracks.not_inList (h : Tracks words before context) :
    (∀ depth, ¬InList before depth) ↔ context.list.depth = 0 := by
  constructor
  · intro hnone
    by_contra hdepth
    exact hnone _ ((h.inside _).mpr ⟨Nat.pos_of_ne_zero hdepth, rfl⟩)
  · intro hdepth depth hlist
    obtain ⟨hpos, hsame⟩ := (h.inside depth).mp hlist
    omega

/-- An item that is neither a table name nor one of the marks of a list leaves the list as
it is. -/
theorem Tracks.other {l : Label} (h : Tracks words before context) (htable : l.1 ≠ .tableName)
    (hopening : l ≠ opening) (hclosing : l ≠ closing) (hcomma : l ≠ comma) :
    Tracks words (before ++ [l]) { context with table := false, column := false } where
  table := iff_of_false Bool.false_ne_true not_namesTable_snoc
  columns := h.columns
  column := by
    rw [namesColumn_snoc]
    simp [hcomma, hopening]
  awaited := by
    rw [awaitsList_snoc_of_ne htable hopening]
    exact h.awaited
  inside depth := by
    rw [inList_snoc_of_ne hopening hclosing, h.inside]

/-- Behind an opening parenthesis the list has been opened, if it was awaited, or one more
parenthesis is open in it. -/
theorem Tracks.opening (h : Tracks words before context) :
    Tracks words (before ++ [opening]) (context.afterSymbol ['(']) := by
  rw [NameContext.afterSymbol_opening]
  exact {
    table := iff_of_false Bool.false_ne_true not_namesTable_snoc
    columns := h.columns
    column := by
      rw [namesColumn_snoc, ← h.awaited]
      simp [comma_ne_opening.symm]
    awaited := iff_of_false ColumnList.opened_ne_awaited not_awaitsList_snoc_opening
    inside := by
      intro depth
      rw [inList_snoc_opening, ← h.awaited, ColumnList.depth_opened]
      simp only [h.inside] }

/-- Behind a closing parenthesis one less is open in the list, and then perhaps none. -/
theorem Tracks.closing (h : Tracks words before context) :
    Tracks words (before ++ [closing]) (context.afterSymbol [')']) := by
  rw [NameContext.afterSymbol_closing]
  exact {
    table := iff_of_false Bool.false_ne_true not_namesTable_snoc
    columns := h.columns
    column := by
      rw [namesColumn_snoc]
      simp [comma_ne_closing.symm, opening_ne_closing.symm]
    awaited := by
      rw [awaitsList_snoc_of_ne (by simp [Roles.closing]) opening_ne_closing.symm,
        ColumnList.closed_eq_awaited]
      exact h.awaited
    inside := by
      intro depth
      rw [inList_snoc_closing, h.inside, ColumnList.depth_closed]
      omega }

/-- Behind a comma a column follows, in the list only where no further parenthesis is open. -/
theorem Tracks.comma (h : Tracks words before context) :
    Tracks words (before ++ [comma]) (context.afterSymbol [',']) := by
  rw [NameContext.afterSymbol_comma]
  exact {
    table := iff_of_false Bool.false_ne_true not_namesTable_snoc
    columns := h.columns
    column := by
      rw [namesColumn_snoc, h.not_inList, h.inside, ← h.columns]
      by_cases hdepth : context.list.depth = 0
      · simp [hdepth, comma_ne_opening]
      · simp [hdepth, comma_ne_opening]
    awaited := by
      rw [awaitsList_snoc_of_ne (by simp [Roles.comma]) comma_ne_opening]
      exact h.awaited
    inside := by
      intro depth
      rw [inList_snoc_of_ne comma_ne_opening comma_ne_closing, h.inside] }

/-- The table name at the front of a command awaits the list. -/
theorem Tracks.tableName (h : Tracks words [] context) (name : Text) :
    Tracks words [(.tableName, name)]
      { context with table := false, column := false, list := .awaited } := by
  have hopening : (.tableName, name) ≠ Roles.opening := nofun
  have hclosing : (.tableName, name) ≠ Roles.closing := nofun
  have hcomma : (.tableName, name) ≠ Roles.comma := nofun
  rw [← List.nil_append [_]]
  exact {
    table := iff_of_false Bool.false_ne_true not_namesTable_snoc
    columns := h.columns
    column := by
      rw [namesColumn_snoc]
      simp [hcomma, hopening]
    awaited := by
      rw [awaitsList_snoc]
      simp
    inside := by
      intro depth
      rw [inList_snoc_of_ne hopening hclosing]
      refine iff_of_false not_inList_nil ?_
      rintro ⟨hpos, hdepth⟩
      exact absurd hdepth (Nat.ne_of_lt hpos) }

/-- Every item keeps the context and the items together, if only the first item names a
table. -/
theorem Tracks.after {part : Node} (h : Tracks words before context)
    (hspace : part.category ≠ .whitespace) (htable : part.category = .tableName → before = []) :
    Tracks words (before ++ [part.label]) (context.after part) := by
  by_cases hname : part.category = .tableName
  · obtain rfl := htable hname
    rw [NameContext.after, hname, Node.label, hname]
    exact h.tableName part.spelling
  by_cases hsymbol : part.category = .symbol
  · rw [NameContext.after, hsymbol, Node.label, hsymbol]
    by_cases hopening : part.spelling = ['(']
    · rw [hopening]
      exact h.opening
    by_cases hclosing : part.spelling = [')']
    · rw [hclosing]
      exact h.closing
    by_cases hcomma : part.spelling = [',']
    · rw [hcomma]
      exact h.comma
    · dsimp only
      rw [NameContext.afterSymbol_other _ hopening hclosing hcomma]
      exact h.other nofun (fun hl => hopening (congrArg Prod.snd hl))
        (fun hl => hclosing (congrArg Prod.snd hl)) fun hl => hcomma (congrArg Prod.snd hl)
  · have hother : context.after part = { context with table := false, column := false } := by
      rw [NameContext.after]
      split <;> first | rfl | contradiction
    rw [hother]
    exact h.other hname (fun hl => hsymbol (congrArg Prod.fst hl))
      (fun hl => hsymbol (congrArg Prod.fst hl)) fun hl => hsymbol (congrArg Prod.fst hl)

end Roles

end QueryTree
