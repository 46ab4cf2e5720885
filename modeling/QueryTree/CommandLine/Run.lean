import QueryTree.CommandLine.Arguments
import QueryTree.Query

/-!
# Running the program

What the program writes and how it ends, as a function of its arguments and its
input.
-/

namespace QueryTree.CommandLine

/-- How the program ends. -/
structure Outcome where
  exit : Nat
  output : Text
  errors : Text
deriving DecidableEq, Repr

namespace Outcome

/-- A line of output. -/
def success (line : Text) : Outcome :=
  { exit := 0, output := line ++ ['\n'], errors := [] }

/-- A line about an error. -/
def failure (line : Text) : Outcome :=
  { exit := 1, output := [], errors := line ++ ['\n'] }

/-- Arguments that are not understood. -/
def usage : Outcome :=
  { exit := 2
    output := []
    errors := "usage: cqlt [-v] [--max-depth N] (check | tree | count | bind) ...\n".toList }

/-- The version of the program. -/
def version : Outcome :=
  success "cqlt 0.1.0".toList

end Outcome

/-- What is known of the program's input. -/
inductive Input where
  /-- There is none but the keyboard. -/
  | terminal
  | bytes (content : ByteArray)

/-- The query that the input holds, without the line ends after it. -/
def Input.query : Input → Except QueryError Text
  | terminal => .error .noQuery
  | bytes content =>
    match String.fromUTF8? content with
    | none => .error .notText
    | some s => .ok ((s.toList.reverse.dropWhile fun c => c == '\n' || c == '\r').reverse)

/-- A query that was given, or else that of the input. -/
def queryOr (given : Option Text) (input : Input) : Except QueryError Text :=
  match given with
  | some query => .ok query
  | none => input.query

/-- What is written about a query that is valid. -/
def checkLine (placeholders : Nat) : Text :=
  "Syntax is valid (".toList ++ Text.ofNat placeholders ++ " placeholder(s))".toList

/-- The line that an action writes. -/
def Action.line (depth : Nat) (input : Input) : Action → Except QueryError Text
  | check given => do
    let query ← queryOr given input
    return checkLine (← Query.check depth query)
  | tree given pretty => do
    let query ← queryOr given input
    Query.tree depth query pretty
  | count given category => do
    let query ← queryOr given input
    return Text.ofNat (← Query.count depth query category)
  | bind query values forceText => Query.bind depth query values forceText

/-- Whether an action reads the program's input. -/
def Action.readsInput : Action → Bool
  | check given => given.isNone
  | tree given _ => given.isNone
  | count given _ => given.isNone
  | bind _ _ _ => false

/-- Runs an action. -/
def Invocation.run (call : Invocation) (input : Input) : Outcome :=
  match call.action.line call.depth input with
  | .ok line => .success line
  | .error e => .failure e.message

/-- Runs the program. -/
def run (args : List Text) (input : Input) : Outcome :=
  match invocation args with
  | .error .usage => .usage
  | .error .version => .version
  | .ok call => call.run input

end QueryTree.CommandLine
