import QueryTree.Grammar.Command
import QueryTree.Grammar.Condition

/-!
# Statements

A statement is a command, perhaps a condition and a command after it, and perhaps
a `;`. Nothing may follow. The parts of a statement are not linked.
-/

namespace QueryTree.Grammar

open Recognizer

/-- The parts of a statement with their whitespace. -/
def statementParts (depth : Nat) : Recognizer (List Node) :=
  ((((optional (one whitespace)).seq (one ((command depth).required .command))).seq
    (optional ((spaced condition).seq (optional (spaced (command depth)))))).seq
    (optional (spaced terminator))).seq
    (optional (one whitespace))

/-- A statement that covers all of the text. -/
def statement (depth : Nat) : Recognizer Node := fun t =>
  (statementParts depth t).bind fun parts rest =>
    if rest.isEmpty then .found (Node.branch .statement parts rest) rest
    else .broken (.trailing rest)

end QueryTree.Grammar

namespace QueryTree

/-- The depth of nesting that is allowed unless another limit is asked for. -/
def defaultDepth : Nat := 64

/-- Reads a source as one statement, with commands and collections nested no
deeper than `depth`. -/
def parse (depth : Nat) (source : Text) : Except ParseError Node :=
  match Grammar.statement depth source with
  | .found root _ => .ok root
  | .absent => .error ((Fault.expected .statement source).locate depth (Text.byteSize source))
  | .broken fault => .error (fault.locate depth (Text.byteSize source))

end QueryTree
