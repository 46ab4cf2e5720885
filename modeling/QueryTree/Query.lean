import QueryTree.Edit
import QueryTree.Grammar.Statement
import QueryTree.Node.Outline
import QueryTree.Node.Walk

/-!
# Queries

What can be done with the text of a query: check it, count its nodes, outline it
and bind values to its placeholders.
-/

namespace QueryTree

/-- Why a query could not be served. -/
inductive QueryError where
  | parse (error : ParseError)
  | edit (error : EditError)
  | unknownCategory (typed : Text)
  /-- No query was given. -/
  | noQuery
  /-- The query could not be read as text. -/
  | notText
deriving DecidableEq, Repr

namespace QueryError

/-- The wording of the error. -/
def message : QueryError → Text
  | parse e => "Parse error: ".toList ++ e.message
  | edit e => "Rewrite error: ".toList ++ e.message
  | unknownCategory typed => unknownCategoryMessage typed
  | noQuery => "No query provided. Pass it as an argument or pipe it to stdin.".toList
  | notText => "IO error: stream did not contain valid UTF-8".toList

end QueryError

namespace Query

/-- The tree of a query. -/
def read (depth : Nat) (query : Text) : Except QueryError Node :=
  (parse depth query).mapError .parse

/-- Checks a query and counts its open placeholders. -/
def check (depth : Nat) (query : Text) : Except QueryError Nat := do
  let root ← read depth query
  return root.countOpen .placeholderInject

/-- Counts the nodes of a category given by name. The name is looked up before the
query is read. -/
def count (depth : Nat) (query typed : Text) : Except QueryError Nat := do
  match Category.ofName? typed with
  | none => throw (.unknownCategory typed)
  | some c =>
    let root ← read depth query
    return root.count c

/-- The outline of a query. -/
def tree (depth : Nat) (query : Text) (pretty : Bool) : Except QueryError Text := do
  let root ← read depth query
  return root.outline.render pretty

/-- The query with typed values for its placeholders. -/
def bind (depth : Nat) (query : Text) (typed : List Text) (forceText : Bool) :
    Except QueryError Text := do
  let root ← read depth query
  let values := typed.map fun t => Value.ofTyped t forceText
  let (bound, _) ← (root.bind values).mapError .edit
  return bound.text

end Query

end QueryTree
