import QueryTree.Grammar.Statement

/-!
# Arguments

The arguments of the command line: options of the program, the name of a command,
and the options and operands of the command. The options of the program may also
stand after the command, and count over those before it. No option may be given
twice on the same side of the command's name.
-/

namespace QueryTree.CommandLine

/-- The commands of the program. -/
inductive CommandName where
  | check
  | tree
  | count
  | bind
deriving DecidableEq, Repr

/-- Options without a value. -/
inductive Flag where
  | verbose
  | version
  | pretty
  | text
deriving DecidableEq, Repr

/-- Options with a value. -/
inductive Setting where
  | maxDepth
  | query
deriving DecidableEq, Repr

/-- An option with or without a value. -/
inductive Switch where
  | flag (f : Flag)
  | setting (s : Setting)
deriving DecidableEq, Repr

/-- Why the arguments do not ask for a command to be run. -/
inductive Halt where
  /-- They are not understood. -/
  | usage
  /-- They ask for the version of the program. -/
  | version
deriving DecidableEq, Repr

/-- The command with a name. -/
def commandName? (arg : Text) : Option CommandName :=
  if arg = "check".toList then some .check
  else if arg = "tree".toList then some .tree
  else if arg = "count".toList then some .count
  else if arg = "bind".toList then some .bind
  else none

/-- The option with a long name, for a command or before any. -/
def longSwitch? (command : Option CommandName) (name : Text) : Option Switch :=
  if name = "verbose".toList then some (.flag .verbose)
  else if name = "max-depth".toList then some (.setting .maxDepth)
  else if name = "version".toList ∧ command = none then some (.flag .version)
  else if name = "pretty".toList ∧ command = some .tree then some (.flag .pretty)
  else if name = "text".toList ∧ command = some .bind then some (.flag .text)
  else if name = "query".toList ∧ command = some .count then some (.setting .query)
  else none

/-- The option with a one-letter name, for a command or before any. -/
def shortSwitch? (command : Option CommandName) (letter : Char) : Option Switch :=
  if letter = 'v' then some (.flag .verbose)
  else if letter = 'V' ∧ command = none then some (.flag .version)
  else if letter = 'p' ∧ command = some .tree then some (.flag .pretty)
  else if letter = 'q' ∧ command = some .count then some (.setting .query)
  else none

/-- What the arguments on one side of the command's name say. -/
structure Collected where
  flags : List Flag
  maxDepth : Option Nat
  query : Option Text
  operands : List Text

namespace Collected

/-- Nothing said yet. -/
def empty : Collected :=
  { flags := [], maxDepth := none, query := none, operands := [] }

/-- Sets a flag, which ends the reading if it asks for the version. -/
def addFlag (c : Collected) (f : Flag) : Except Halt Collected :=
  if f = .version then .error .version
  else if f ∈ c.flags then .error .usage
  else .ok { c with flags := f :: c.flags }

/-- The numbers that a limit on the depth may have are below this bound. -/
def depthLimit : Nat := Nat.pow 2 64

/-- Gives a value to a setting. -/
def addSetting (c : Collected) (s : Setting) (value : Text) : Except Halt Collected :=
  match s, c.maxDepth, c.query with
  | .maxDepth, none, _ =>
    match Text.unsigned? depthLimit value with
    | some depth => .ok { c with maxDepth := some depth }
    | none => .error .usage
  | .query, _, none => .ok { c with query := some value }
  | _, _, _ => .error .usage

/-- Adds operands after those given before. -/
def addOperands (c : Collected) (args : List Text) : Collected :=
  { c with operands := c.operands ++ args }

end Collected

/-- Whether an argument is written as an option. A hyphen alone is an operand. -/
def isSwitch : Text → Bool
  | '-' :: _ :: _ => true
  | _ => false

/-- An option that has been read. A setting without a value takes the next argument. -/
inductive Pending where
  | done (c : Collected)
  | awaits (c : Collected) (s : Setting)

/-- Reads an option with a long name and perhaps a value after `=`. -/
def readLong (command : Option CommandName) (c : Collected) (arg : Text) :
    Except Halt Pending :=
  let name := arg.takeWhile (· != '=')
  match longSwitch? command name, arg.drop name.length with
  | some (.flag f), [] => (c.addFlag f).map .done
  | some (.setting s), [] => .ok (.awaits c s)
  | some (.setting s), _ :: value => (c.addSetting s value).map .done
  | _, _ => .error .usage

/-- Reads options with one-letter names. What follows a setting is its value, with
or without `=` in front. -/
def readShort (command : Option CommandName) : Collected → Text → Except Halt Pending
  | c, [] => .ok (.done c)
  | c, letter :: rest =>
    match shortSwitch? command letter with
    | some (.flag f) => do readShort command (← c.addFlag f) rest
    | some (.setting s) =>
      match rest with
      | [] => .ok (.awaits c s)
      | '=' :: value => (c.addSetting s value).map .done
      | _ => (c.addSetting s rest).map .done
    | none => .error .usage

/-- Reads an argument that is written as an option. -/
def readSwitch (command : Option CommandName) (c : Collected) (arg : Text) :
    Except Halt Pending :=
  match arg with
  | '-' :: '-' :: long => readLong command c long
  | _ => readShort command c (arg.drop 1)

/-- Reads the arguments after the name of a command. After `--` all are operands. -/
def readCommand (command : CommandName) : Collected → List Text → Except Halt Collected
  | c, [] => .ok c
  | c, arg :: rest =>
    if arg = "--".toList then .ok (c.addOperands rest)
    else if isSwitch arg then
      match readSwitch (some command) c arg with
      | .error halt => .error halt
      | .ok (.done c) => readCommand command c rest
      | .ok (.awaits c s) =>
        match rest with
        | [] => .error .usage
        | value :: rest =>
          if isSwitch value then .error .usage
          else match c.addSetting s value with
            | .error halt => .error halt
            | .ok c => readCommand command c rest
    else readCommand command (c.addOperands [arg]) rest

/-- Reads the arguments up to the name of the command, and hands over the rest. -/
def readProgram : Collected → List Text → Except Halt (Collected × CommandName × List Text)
  | _, [] => .error .usage
  | c, arg :: rest =>
    if isSwitch arg then
      match readSwitch none c arg with
      | .error halt => .error halt
      | .ok (.done c) => readProgram c rest
      | .ok (.awaits c s) =>
        match rest with
        | [] => .error .usage
        | value :: rest =>
          if isSwitch value then .error .usage
          else match c.addSetting s value with
            | .error halt => .error halt
            | .ok c => readProgram c rest
    else match commandName? arg with
      | some command => .ok (c, command, rest)
      | none => .error .usage

/-- What a command is to do. A query that is missing is read from the input. -/
inductive Action where
  | check (query : Option Text)
  | tree (query : Option Text) (pretty : Bool)
  | count (query : Option Text) (category : Text)
  | bind (query : Text) (values : List Text) (forceText : Bool)
deriving DecidableEq, Repr

/-- A call of the program. -/
structure Invocation where
  depth : Nat
  verbose : Bool
  action : Action
deriving DecidableEq, Repr

/-- The action of a command, if it has the operands that it needs. -/
def action? (command : CommandName) (c : Collected) : Option Action :=
  match command, c.operands with
  | .check, [] => some (.check none)
  | .check, [query] => some (.check (some query))
  | .tree, [] => some (.tree none (c.flags.contains .pretty))
  | .tree, [query] => some (.tree (some query) (c.flags.contains .pretty))
  | .count, [category] => some (.count c.query category)
  | .bind, query :: values => some (.bind query values (c.flags.contains .text))
  | _, _ => none

/-- The call that the arguments ask for. -/
def invocation (args : List Text) : Except Halt Invocation := do
  let (outer, command, rest) ← readProgram .empty args
  let inner ← readCommand command .empty rest
  match action? command inner with
  | none => throw .usage
  | some action => return {
      depth := (inner.maxDepth.or outer.maxDepth).getD defaultDepth
      verbose := inner.flags.contains .verbose || outer.flags.contains .verbose
      action := action }

end QueryTree.CommandLine
