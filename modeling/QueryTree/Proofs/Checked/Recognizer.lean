import QueryTree.Grammar.Production
import QueryTree.Proofs.Checked.Cut
import QueryTree.Proofs.Checked.NameFlags
import QueryTree.Proofs.Links.Neighbours

/-!
# Reading with checks

The productions once more, as a machine reads them: a text is a run of bytes, a scan finds the
byte where a leaf ends and the text is cut there, the text of a larger node is cut where what is
left begins, parts are linked by writing into parts at their positions, and the levels that are
open are counted. Everything of this can go wrong: a position may lie past the end or inside a
character, a difference may be negative, a part may not be there, a counter may leave its
bounds. A checked recognizer gives nothing at all where one of these happens.
-/

namespace QueryTree

open Node

/-- A recognizer that is given the number of open levels and leaves one behind, and that gives
nothing where a check fails. -/
abbrev Checked (α : Type) := Text → Nat → Option (Reading α × Nat)

namespace Checked

section Combinators

variable {α β σ : Type}

/-- A recognizer that has nothing to check. -/
def ofRecognizer (r : Recognizer α) : Checked α := fun t depth => some (r t, depth)

/-- Continues with what was found. -/
def bind (k : Checked α) (next : α → Checked β) : Checked β := fun t depth =>
  (k t depth).bind fun
    | (.found value rest, depth) => next value rest depth
    | (.absent, depth) => some (.absent, depth)
    | (.broken fault, depth) => some (.broken fault, depth)

/-- Changes the value that was found. -/
def map (f : α → β) (k : Checked α) : Checked β :=
  k.bind fun value => ofRecognizer fun rest => .found (f value) rest

/-- Tries the second recognizer where the first is absent. -/
def orElse (k l : Checked α) : Checked α := fun t depth =>
  (k t depth).bind fun
    | (.absent, depth) => l t depth
    | outcome => some outcome

/-- Turns the absence of a production into a fault. -/
def orFault (k : Checked α) (fault : Text → Fault) : Checked α :=
  k.orElse (ofRecognizer fun t => .broken (fault t))

/-- A production that has to be there. -/
def required (c : Category) (k : Checked α) : Checked α :=
  k.orFault (Fault.expected c)

/-- Turns the absence of a production into a fault if the production is demanded. -/
def orFaultUnder (demand : Demand) (k : Checked α) (fault : Text → Fault) : Checked α :=
  match demand with
  | .optional => k
  | .mandatory => k.orFault fault

/-- A production of category `c` that has to be there if it is demanded. -/
def under (demand : Demand) (c : Category) (k : Checked α) : Checked α :=
  k.orFaultUnder demand (Fault.expected c)

/-- Keeps a node that satisfies a test. -/
def filter (k : Checked Node) (keep : Node → Text → Bool) : Checked Node :=
  k.bind fun n => ofRecognizer fun rest => if keep n rest then .found n rest else .absent

/-- A node as the only part. -/
def one (k : Checked Node) : Checked (List Node) :=
  k.map fun n => [n]

/-- A node as the first part, and more parts that depend on it. -/
def andThen (k : Checked Node) (parts : Node → Checked (List Node)) : Checked (List Node) :=
  k.bind fun n => (parts n).map fun ns => n :: ns

/-- The parts of the first recognizer, then those of the second. -/
def seq (k l : Checked (List Node)) : Checked (List Node) :=
  k.bind fun ns => l.map fun ms => ns ++ ms

/-- The parts of a recognizer if it finds them, and none otherwise. -/
def optional (k : Checked (List Node)) : Checked (List Node) :=
  k.orElse (ofRecognizer fun t => .found [] t)

/-- Repeats for at most `bound` rounds. To take note of the parts of a round may fail. -/
def repeatUpTo (step : σ → Checked (List Node)) (next? : σ → Node → Option σ) :
    Nat → σ → Checked (List Node)
  | 0, _, t, depth => some (.found [] t, depth)
  | bound + 1, s, t, depth =>
    (step s t depth).bind fun
      | (.found ns rest, depth) => (ns.foldlM next? s).bind fun s =>
          (repeatUpTo step next? bound s).map (fun ms => ns ++ ms) rest depth
      | (.absent, depth) => some (.found [] t, depth)
      | (.broken fault, depth) => some (.broken fault, depth)

/-- Repeats for as long as there is something to read. -/
def repeated (step : σ → Checked (List Node)) (next? : σ → Node → Option σ) (s : σ) :
    Checked (List Node) := fun t =>
  repeatUpTo step next? t.length s t

/-- Repeats a recognizer that does not depend on what was read before. -/
def many (k : Checked (List Node)) : Checked (List Node) :=
  repeated (fun _ => k) (fun _ _ => some ()) ()

end Combinators

section Nodes

/-- A leaf up to the byte where a scan ends, if the scan finds one. -/
def leaf (c : Category) (scan : Text → Option Nat) : Checked Node := fun t depth =>
  match scan t with
  | none => some (.absent, depth)
  | some i => (Text.cut? t i).map fun parts =>
      (.found (Node.leaf c parts.1 parts.2) parts.2, depth)

/-- Adds a part and links it with the part that waits for its link, which has to be there. -/
def link? (g : Growth) (n : Node) : Option Growth :=
  match g.tail with
  | none => some (g.link n)
  | some i => if i < g.parts.length then some (g.link n) else none

/-- The parts of a production that are linked as they come. -/
def linkEach? (parts : List Node) : Option (List Node) :=
  (parts.foldlM link? Growth.empty).map Growth.parts

/-- A node with some children. It begins where the input does and ends where what is left
begins, which has to be at the end of the input. -/
def composite? (c : Category) (input rest : Text) (children : List Node) : Option Node :=
  (sub? (Text.byteSize input) (Text.byteSize rest)).bind fun consumed =>
    (Text.cut? input consumed).map fun parts =>
      { category := c
        spelling := parts.1
        following := rest
        prev := none
        next := none
        replacement := none
        children := children }

/-- Where a production that began at a text ends: behind the last of its parts. -/
def restAfter (start : Text) (parts : List Node) : Text :=
  parts.foldl (fun _ n => n.following) start

/-- A production whose parts are linked to their neighbours. -/
def node (c : Category) (parts : Checked (List Node)) : Checked Node := fun t =>
  parts.bind (fun ns _ depth =>
    (linkEach? ns).bind fun children =>
      (composite? c t (restAfter t ns) children).map fun n => (.found n n.following, depth)) t

/-- A production around a single node. -/
def wrap (c : Category) (k : Checked Node) : Checked Node :=
  node c k.one

/-- Sets the counter of open levels, which must not exceed the limit. -/
def set? (limit depth : Nat) : Option Nat :=
  if depth ≤ limit then some depth else none

/-- Opens a level for a production that begins at `start`, and closes it however the
reading ends. At the limit the level is refused. -/
def entered {α : Type} (limit : Nat) (start : Text) (k : Checked α) : Checked α := fun t depth =>
  (add? depth 1).bind fun deeper =>
    if limit < deeper then some (.broken (.tooDeep start), depth)
    else
      (set? limit deeper).bind fun deeper =>
        (k t deeper).bind fun outcome =>
          (sub? outcome.2 1).map fun depth => (outcome.1, depth)

end Nodes

section Terminals

/-- The size of a run of characters that is not empty. -/
def runEnd (p : Char → Bool) (t : Text) : Option Nat :=
  if Text.scan p t = 0 then none else some (Text.scan p t)

/-- A leaf over the longest run of characters of a class. -/
def run (c : Category) (p : Char → Bool) : Checked Node :=
  leaf c (runEnd p)

/-- A leaf over one given character. -/
def delimiter (x : Char) (c : Category) : Checked Node :=
  leaf c fun t => if t.head? = some x then some x.utf8Size else none

/-- A single symbol. Every symbol takes one byte. -/
def symbol : Checked Node :=
  leaf .symbol fun t => if t.head?.any Grammar.symbols.contains then some 1 else none

/-- The comparisons other than `=`, longest first. -/
def operators : List Text :=
  [['<', '='], ['>', '='], ['!', '='], ['<'], ['>']]

def operator : Checked Node :=
  leaf .operator fun t => (operators.find? fun op => op.isPrefixOf t).map Text.byteSize

/-- A word of letters and digits that satisfies a test. -/
def word (c : Category) (accept : Text → Bool) : Checked Node :=
  (run c Char.isAlphanum).filter fun n _ => accept n.spelling

/-- Hexadecimal digits and hyphens, a digit first. -/
def hexBlob : Checked Node :=
  leaf .hexBlob fun t =>
    if Text.scan Text.isHexDigit t = 0 then none else some (Text.scan Grammar.isBlobChar t)

def whitespace : Checked Node :=
  run .whitespace Text.isLayout

def number : Checked Node :=
  run .number Char.isDigit

def oneOf (words : List Text) (c : Category) : Checked Node :=
  word c fun w => words.any fun known => Text.sameWord known w

/-- The body of a string up to its closing quote, which is looked for byte by byte. -/
def inputCharacters : Checked Node := fun t depth =>
  (Text.bodyEnd? (Text.bytes t) (Text.byteSize t + 1) 0).bind fun i =>
    leaf .inputCharacters (fun _ => if i = 0 then none else some i) t depth

def quote : Checked Node :=
  delimiter '\'' .quote

/-- A string between quotes. -/
def string (demand : Demand) : Checked Node :=
  node .string (((one (quote.under demand .string)).seq (optional (one inputCharacters))).seq
    (one (quote.orFault fun t => .unterminated .string '\'' (.start t))))

/-- A node after optional whitespace. -/
def spaced (k : Checked Node) : Checked (List Node) :=
  (optional (one whitespace)).seq (one k)

end Terminals

section Selectors

/-- A name without quotes. Letters and digits are read first, and where they may be a name the
text is cut a second time behind them. -/
def itemNameCaseInsensitive (demand : Demand) : Checked Node := fun t depth =>
  (run .chars Char.isAlphanum t depth).bind fun
    | (.found n _, depth) =>
      if !n.spelling.head?.any Char.isDigit && !isClauseWord n.spelling then
        leaf .itemNameCaseInsensitive (fun _ => some (Text.byteSize n.spelling)) t depth
      else some (Recognizer.missing demand .itemNameCaseInsensitive t, depth)
    | (_, depth) => some (Recognizer.missing demand .itemNameCaseInsensitive t, depth)

/-- A name between double quotes. The closing quote is looked for byte by byte, the text between
the quotes is cut out and read as letters and digits, and the name ends two bytes after that
text. -/
def itemNameCaseSensitive (demand : Demand) : Checked Node
  | '"' :: t, depth =>
    match Text.find? '"' t with
    | none =>
      some (.broken (.unterminated .itemNameCaseSensitive '"' (.finish ('"' :: t))), depth)
    | some close =>
      (Text.cut? t close).bind fun parts =>
        (run .chars Char.isAlphanum parts.1 depth).bind fun
          | (.found _ [], depth) =>
            leaf .itemNameCaseSensitive (fun _ => some (close + 2)) ('"' :: t) depth
          | (_, depth) =>
            some (Recognizer.missing demand .itemNameCaseSensitive ('"' :: t), depth)
  | t, depth => some (Recognizer.missing demand .itemNameCaseSensitive t, depth)

def itemName (demand : Demand) : Checked Node :=
  wrap .itemName (((itemNameCaseSensitive .optional).orElse
    (itemNameCaseInsensitive .optional)).under demand .itemName)

/-- The blob that reaches further than `k` does from the same place. -/
def blobBeyond (k : Checked Node) : Checked Node := fun t =>
  k.bind (fun n _ => hexBlob.filter (fun m _ =>
    n.spelling.length < m.spelling.length && Grammar.isMixed m.spelling) t) t

def literal (demand : Demand) : Checked Node :=
  wrap .literal (((((blobBeyond number).orElse number).orElse (string .optional)).orElse
    hexBlob).under demand .literal)

def qualifiedName (role : Category) : Checked Node :=
  node role ((one (itemName .optional)).seq
    (optional ((one (delimiter '.' .accessor)).seq
      (one ((itemName .optional).required .itemName)))))

def selector (demand : Demand) (role : Category) : Checked Node :=
  orElse (wrap .selectorItem (wrap .literal (blobBeyond (itemName .optional))))
    (orElse (qualifiedName role)
      (wrap .selectorItem (((delimiter '?' .placeholderInject).orElse
        (literal .optional)).under demand .selectorItem)))

def selectorItem (demand : Demand) : Checked Node :=
  selector demand .selectorItem

end Selectors

section Collections

/-- The elements of a collection and its closing delimiter. -/
def elements (first next close : Checked Node) (unclosed : Text → Fault) :
    Checked (List Node) :=
  orElse
    (((spaced first).seq (many ((spaced (delimiter ',' .symbol)).seq (spaced next)))).seq
      (spaced (close.orFault unclosed)))
    (spaced close)

/-- A collection. Its level is opened after the opening delimiter. -/
def collection (limit : Nat) (demand : Demand) (c : Category) (opening first next : Checked Node)
    (closing : Char) (finish : Category) : Checked Node := fun t =>
  node c ((opening.under demand c).andThen fun _ =>
    entered limit t ((elements first next (delimiter closing finish)
      fun rest => .unterminated c closing (.start rest)).orFaultUnder demand
        fun _ => .expected c t)) t

def arrayLiteral (limit : Nat) (demand : Demand) : Checked Node :=
  collection limit demand .arrayLiteral (delimiter '[' .arrayStart) (selectorItem .optional)
    ((selectorItem .optional).required .selectorItem) ']' .arrayEnd

def mapEntry (demand : Demand) : Checked Node :=
  node .mapEntry (((one ((selectorItem .optional).under demand .selectorItem)).seq
    (under demand .mapSeparator (spaced (delimiter ':' .mapSeparator)))).seq
    (spaced ((selectorItem .optional).required .selectorItem)))

def mapLiteral (limit : Nat) (demand : Demand) : Checked Node :=
  collection limit demand .mapLiteral (delimiter '\x7b' .mapStart) (mapEntry .optional)
    (mapEntry .mandatory) '\x7d' .mapEnd

end Collections

section Commands

def commandWord : Checked Node :=
  word .reservedWord fun w => (Keyword.ofText? w).any fun k => k != .WHERE

/-- The first word of a sequence. The word after it is read ahead if that decides. -/
def leadingWord : Checked Node :=
  commandWord.bind fun n rest depth =>
    if isClauseWord n.spelling then some (.found n rest, depth)
    else
      (spaced commandWord rest depth).bind fun
        | (.found ns _, depth) =>
          if ns.getLast?.any fun m => Grammar.arePaired n.spelling m.spelling then
            some (.found n rest, depth)
          else some (.absent, depth)
        | (_, depth) => some (.absent, depth)

def continuingWord (last : Text) : Checked Node :=
  orElse (commandWord.filter fun n _ => Grammar.arePaired last n.spelling) leadingWord

def reservedWordSequence (demand : Demand) : Checked Node :=
  node .reservedWordSequence ((leadingWord.under demand .reservedWordSequence).andThen
    fun first => repeated (fun last => spaced (continuingWord last))
      (fun last n => some (Grammar.lastWord last n)) first.spelling)

/-- Absent where `stop` finds something, and `k` elsewhere. -/
def otherThan (stop k : Checked Node) : Checked Node := fun t depth =>
  (stop t depth).bind fun
    | (.found _ _, depth) => some (.absent, depth)
    | (.absent, depth) => k t depth
    | (.broken fault, depth) => some (.broken fault, depth)

variable (limit : Nat)

def plainItem (role : Category) : Checked Node :=
  (((arrayLiteral limit .optional).orElse (mapLiteral limit .optional)).orElse
    (selector .optional role)).orElse symbol

/-- An item of a command. -/
def commandItem (flags : NameFlags) : Checked Node :=
  if flags.inList then (reservedWordSequence .optional).orElse (plainItem limit flags.role)
  else otherThan leadingWord (plainItem limit flags.role)

/-- The items of a command. -/
def commandItems (words : List Keyword) : Checked (List Node) :=
  repeated (fun flags => spaced (commandItem limit flags)) NameFlags.after?
    (.ofKeywords words)

/-- A command that goes on with `nested`. Its level is opened after its keywords. -/
def commandOver (demand : Demand) (nested : Checked Node) : Checked Node := fun t =>
  node .command (((reservedWordSequence .optional).under demand .command).andThen
    fun words => entered limit t
      ((commandItems limit (Grammar.keywordsOf words)).seq (optional (spaced nested)))) t

/-- A command with at most `bound` commands nested in it. -/
def command (demand : Demand) : Nat → Checked Node
  | 0 => commandOver limit demand (ofRecognizer fun _ => .absent)
  | bound + 1 => commandOver limit demand (command .optional bound)

end Commands

section Statements

def conditionItem (demand : Demand) : Checked Node :=
  node .conditionItem (((one ((selectorItem .optional).under demand .conditionItem)).seq
    (spaced ((operator.orElse symbol).required .symbol))).seq
    (spaced ((selectorItem .optional).required .selectorItem)))

def conditionChain (demand : Demand) : Checked Node :=
  node .conditionChain ((one (conditionItem demand)).seq
    (many (((spaced (oneOf [Keyword.AND.spelling, Keyword.OR.spelling] .reservedWord)).seq
      (one (whitespace.required .whitespace))).seq
      (one ((conditionItem .optional).required .conditionItem)))))

def condition (demand : Demand) : Checked Node :=
  node .condition (((one ((oneOf [Keyword.WHERE.spelling] .whereKeyword).under demand
    .condition)).seq (one (whitespace.required .whitespace))).seq
    (one (conditionChain .mandatory)))

/-- The parts of a statement with their whitespace. -/
def statementParts (limit : Nat) : Checked (List Node) :=
  let command := command limit .optional limit
  ((((optional (one whitespace)).seq (one (command.required .command))).seq
    (optional ((spaced (condition .optional)).seq (optional (spaced command))))).seq
    (optional (spaced (delimiter ';' .terminator)))).seq
    (optional (one whitespace))

/-- A statement that covers all of the text. Its parts are not linked. -/
def statement (limit : Nat) : Checked Node := fun t =>
  (statementParts limit).bind (fun ns _ depth =>
    if (restAfter t ns).isEmpty then
      (composite? .statement t (restAfter t ns) ns).map fun n => (.found n n.following, depth)
    else some (.broken (.trailing (restAfter t ns)), depth)) t

/-- A production that may be absent. -/
def offered (limit : Nat) : Production → Checked Node
  | .whitespace => whitespace
  | .chars => run .chars Char.isAlphanum
  | .number => number
  | .hexBlob => hexBlob
  | .symbol => symbol
  | .accessor => delimiter '.' .accessor
  | .placeholder => delimiter '?' .placeholderInject
  | .mapSeparator => delimiter ':' .mapSeparator
  | .terminator => delimiter ';' .terminator
  | .operator => operator
  | .reservedWord => word .reservedWord isReservedWord
  | .whereKeyword => oneOf [Keyword.WHERE.spelling] .whereKeyword
  | .inputCharacters => inputCharacters
  | .string => string .optional
  | .delimiter x c => delimiter x c
  | .keyword words c => oneOf words c
  | .reservedWordSequence => reservedWordSequence .optional
  | .itemNameCaseInsensitive => itemNameCaseInsensitive .optional
  | .itemNameCaseSensitive => itemNameCaseSensitive .optional
  | .itemName => itemName .optional
  | .literal => literal .optional
  | .selectorItem => selectorItem .optional
  | .arrayLiteral => arrayLiteral limit .optional
  | .mapLiteral => mapLiteral limit .optional
  | .command => command limit .optional limit
  | .condition => condition .optional
  | .conditionChain => conditionChain .optional
  | .conditionItem => conditionItem .optional
  | .statement => statement limit

/-- A production under a demand. -/
def ofProduction (limit : Nat) (demand : Demand) : Production → Checked Node
  | .string => string demand
  | .reservedWordSequence => reservedWordSequence demand
  | .itemNameCaseInsensitive => itemNameCaseInsensitive demand
  | .itemNameCaseSensitive => itemNameCaseSensitive demand
  | .itemName => itemName demand
  | .literal => literal demand
  | .selectorItem => selectorItem demand
  | .arrayLiteral => arrayLiteral limit demand
  | .mapLiteral => mapLiteral limit demand
  | .command => command limit demand limit
  | .condition => condition demand
  | .conditionChain => conditionChain demand
  | .conditionItem => conditionItem demand
  | .statement => statement limit
  | p => (offered limit p).under demand p.category

end Statements

section Links

/-- Follows the forward links from position `i`. Every position on the way has to be that of a
child, and the way has to end after so many parts. -/
def follow? (children : List Node) : Nat → Nat → Option (List Node)
  | 0, _ => none
  | steps + 1, i =>
    children[i]?.bind fun child =>
      match child.next with
      | none => some [child]
      | some j => (follow? children steps j).map fun more => child :: more

/-- The parts of the production of `n` from position `i` on. The way begins only at a child. -/
def sequence? (n : Node) (i : Nat) : Option (List Node) :=
  if i < n.children.length then follow? n.children n.children.length i else some []

end Links

end Checked

end QueryTree
