import QueryTree.Grammar.Statement

/-!
# Productions

The productions that can be read on their own, at the front of any text. Every
one of them can be demanded: its absence is then an error instead of an answer.
-/

namespace QueryTree

/-- A production of the grammar that can be read on its own. -/
inductive Production where
  | whitespace
  | chars
  | number
  | hexBlob
  | symbol
  | accessor
  | placeholder
  | mapSeparator
  | terminator
  | operator
  | reservedWord
  | whereKeyword
  | inputCharacters
  | string
  /-- One given character, as a production of a given category. -/
  | delimiter (character : Char) (category : Category)
  /-- One of some words in any case, as a production of a given category. -/
  | keyword (words : List Text) (category : Category)
  | reservedWordSequence
  | itemNameCaseInsensitive
  | itemNameCaseSensitive
  | itemName
  | literal
  | selectorItem
  | arrayLiteral
  | mapLiteral
  | command
  | condition
  | conditionChain
  | conditionItem
  | statement
deriving DecidableEq, Repr

namespace Production

open Recognizer

/-- The category that an error names when the production is missing. A chain is
missing if its first comparison is. -/
def category : Production → Category
  | whitespace => .whitespace
  | chars => .chars
  | number => .number
  | hexBlob => .hexBlob
  | symbol => .symbol
  | accessor => .accessor
  | placeholder => .placeholderInject
  | mapSeparator => .mapSeparator
  | terminator => .terminator
  | operator => .operator
  | reservedWord => .reservedWord
  | whereKeyword => .whereKeyword
  | inputCharacters => .inputCharacters
  | string => .string
  | delimiter _ c => c
  | keyword _ c => c
  | reservedWordSequence => .reservedWordSequence
  | itemNameCaseInsensitive => .itemNameCaseInsensitive
  | itemNameCaseSensitive => .itemNameCaseSensitive
  | itemName => .itemName
  | literal => .literal
  | selectorItem => .selectorItem
  | arrayLiteral => .arrayLiteral
  | mapLiteral => .mapLiteral
  | command => .command
  | condition => .condition
  | conditionChain => .conditionItem
  | conditionItem => .conditionItem
  | statement => .statement

/-- Reads a production that may be absent, with commands and collections nested
no deeper than `depth`. -/
def offered (depth : Nat) : Production → Recognizer Node
  | whitespace => Grammar.whitespace
  | chars => Grammar.chars
  | number => Grammar.number
  | hexBlob => Grammar.hexBlob
  | symbol => Grammar.symbol
  | accessor => Grammar.accessor
  | placeholder => Grammar.placeholder
  | mapSeparator => Grammar.mapSeparator
  | terminator => Grammar.terminator
  | operator => Grammar.operator
  | reservedWord => Grammar.reservedWord
  | whereKeyword => Grammar.whereKeyword
  | inputCharacters => Grammar.inputCharacters
  | string => Grammar.string
  | delimiter x c => Grammar.delimiter x c
  | keyword words c => Grammar.oneOf words c
  | reservedWordSequence => Grammar.reservedWordSequence
  | itemNameCaseInsensitive => Grammar.itemNameCaseInsensitive
  | itemNameCaseSensitive => Grammar.itemNameCaseSensitive
  | itemName => Grammar.itemName
  | literal => Grammar.literal
  | selectorItem => Grammar.selectorItem
  | arrayLiteral => Grammar.arrayLiteral depth
  | mapLiteral => Grammar.mapLiteral depth
  | command => Grammar.command depth
  | condition => Grammar.condition
  | conditionChain => Grammar.conditionChain .optional
  | conditionItem => Grammar.conditionItem
  | statement => Grammar.statement depth

/-- Reads a production under a demand. One that is made of parts checks the demand where the
parts are missing, a chain hands it to its first comparison, and a statement is never
absent. A production of characters alone is missing in one place. -/
def recognizer (depth : Nat) (demand : Demand) : Production → Recognizer Node
  | string => Grammar.stringUnder demand
  | reservedWordSequence => Grammar.reservedWordSequenceUnder demand
  | itemNameCaseInsensitive => Grammar.itemNameCaseInsensitiveUnder demand
  | itemNameCaseSensitive => Grammar.itemNameCaseSensitiveUnder demand
  | itemName => Grammar.itemNameUnder demand
  | literal => Grammar.literalUnder demand
  | selectorItem => Grammar.selectorItemUnder demand
  | arrayLiteral => Grammar.arrayLiteralUnder demand depth
  | mapLiteral => Grammar.mapLiteralUnder demand depth
  | command => Grammar.commandUnder demand depth
  | condition => Grammar.conditionUnder demand
  | conditionChain => Grammar.conditionChain demand
  | conditionItem => Grammar.conditionItemUnder demand
  | statement => Grammar.statement depth
  | p => (p.offered depth).under demand p.category

end Production

/-- Reads a production at the front of an input. Offsets of errors are those in a
source that the input is the end of. -/
def recognize (depth : Nat) (source : Text) (p : Production) (demand : Demand)
    (input : Text) : Except ParseError (Option Node) :=
  match p.recognizer depth demand input with
  | .found n _ => .ok (some n)
  | .absent => .ok none
  | .broken fault => .error (fault.locate depth (Text.byteSize source))

end QueryTree
