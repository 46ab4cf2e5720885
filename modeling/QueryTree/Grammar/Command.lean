import QueryTree.Grammar.Collection
import QueryTree.Grammar.NameContext

/-!
# Commands

A command is a sequence of keywords, its items, and perhaps the command that
continues it: in `SELECT a FROM t` the command `FROM t` is nested. Keywords end the
items, except inside the list after a table name, where they are items.
-/

namespace QueryTree.Grammar

open Recognizer

/-- Absent where `stop` finds something, and `r` elsewhere. -/
def otherThan (stop r : Recognizer Node) : Recognizer Node := fun t =>
  match stop t with
  | .found _ _ => .absent
  | .absent => r t
  | .broken fault => .broken fault

/-- An item that is not a keyword: a collection, a selector or a symbol. -/
def plainItem (room : Nat) (role : Category) : Recognizer Node :=
  (((arrayLiteral room).orElse (mapLiteral room)).orElse (selector role)).orElse symbol

/-- An item of a command. -/
def commandItem (room : Nat) (context : NameContext) : Recognizer Node :=
  if context.inList then reservedWordSequence.orElse (plainItem room context.role)
  else otherThan leadingWord (plainItem room context.role)

/-- The items of a command. -/
def commandItems (room : Nat) (words : List Keyword) : Recognizer (List Node) :=
  repeated (fun context => spaced (commandItem room context)) NameContext.after
    (NameContext.ofKeywords words)

/-- A command. The argument is the number of levels of nesting left. -/
def commandUnder (demand : Demand) : Nat → Recognizer Node
  | 0 => refused (reservedWordSequence.under demand .command)
  | room + 1 =>
    node .command ((reservedWordSequence.under demand .command).andThen fun words =>
      (commandItems room (keywordsOf words)).seq (optional (spaced (commandUnder .optional room))))

/-- A command, if there is one. -/
def command (room : Nat) : Recognizer Node :=
  commandUnder .optional room

theorem command_zero : command 0 = refused reservedWordSequence := rfl

theorem command_succ (room : Nat) : command (room + 1) =
    node .command (reservedWordSequence.andThen fun words =>
      (commandItems room (keywordsOf words)).seq (optional (spaced (command room)))) := rfl

end QueryTree.Grammar
