import QueryTree.Grammar.KeywordSequence

/-!
# What names refer to

Inside a command the next name may refer to a table, to a column or to nothing in
particular. That depends on the keywords of the command and on the items before
the name: a table may come first, columns open the command and each part of it
between commas, and the parenthesized list after a table name holds columns.
-/

namespace QueryTree.Grammar

/-- Where the reading stands with respect to the list after a table name. -/
inductive ColumnList where
  | none
  /-- A table has been named and its list may follow. -/
  | awaited
  /-- Inside the list, below so many further parentheses. -/
  | inside (nesting : Nat)
deriving DecidableEq, Repr

/-- What is known about the next name of a command. -/
structure NameContext where
  /-- The next item may be the name of a table. -/
  table : Bool
  /-- The keywords of the command call for columns. -/
  columns : Bool
  /-- The next name refers to a column, unless it names a table. -/
  column : Bool
  list : ColumnList
deriving DecidableEq, Repr

namespace NameContext

/-- Whether the last keyword allows a table name right after it. -/
def endsBeforeTable (words : List Keyword) : Bool :=
  words.getLast?.any fun k => k.opensTable || k == .EXISTS

/-- The context at the first item after the keywords of a command. -/
def ofKeywords (words : List Keyword) : NameContext where
  table := words.any Keyword.opensTable && endsBeforeTable words
  columns := words.any Keyword.opensColumns
  column := words.any Keyword.opensColumns
  list := .none

/-- Whether the next item is inside the list after a table name. -/
def inList (context : NameContext) : Bool :=
  match context.list with
  | .inside _ => true
  | _ => false

/-- The category of the next name. -/
def role (context : NameContext) : Category :=
  if context.table then .tableName
  else if context.column then .fieldName
  else .selectorItem

/-- The context after a symbol. -/
def afterSymbol (context : NameContext) (s : Text) : NameContext :=
  match s, context.list with
  | ['('], .awaited => { context with table := false, column := true, list := .inside 0 }
  | ['('], .inside n => { context with table := false, column := false, list := .inside (n + 1) }
  | [')'], .inside 0 => { context with table := false, column := false, list := .none }
  | [')'], .inside (n + 1) => { context with table := false, column := false, list := .inside n }
  | [','], .inside n => { context with table := false, column := n == 0 }
  | [','], _ => { context with table := false, column := context.columns }
  | _, _ => { context with table := false, column := false }

/-- The context after a part of a command. Whitespace changes nothing. -/
def after (context : NameContext) (part : Node) : NameContext :=
  match part.category with
  | .whitespace => context
  | .tableName => { context with table := false, column := false, list := .awaited }
  | .symbol => context.afterSymbol part.spelling
  | _ => { context with table := false, column := false }

end NameContext

end QueryTree.Grammar
