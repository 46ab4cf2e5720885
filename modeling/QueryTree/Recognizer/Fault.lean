import QueryTree.Category

/-!
# Faults and parse errors

A recognizer sees only the text in front of it, so it describes what is wrong
by that text. `Fault.locate` turns a fault into a parse error with a byte offset
into the source once the size of the source is known.
-/

namespace QueryTree

/-- A place in a source, given by a text that remains to be read. -/
inductive Place where
  /-- Where the remaining text begins. -/
  | start (remaining : Text)
  /-- Where the remaining text ends. -/
  | finish (remaining : Text)
deriving DecidableEq, Repr

namespace Place

/-- The byte offset of a place in a source of the given size. A text longer than
the source begins at its start. -/
def offset (sourceSize : Nat) : Place → Nat
  | start t => sourceSize - Text.byteSize t
  | finish t => sourceSize - Text.byteSize t + Text.byteSize t

end Place

/-- Why a recognizer gave up. -/
inductive Fault where
  /-- A production that had to be there is missing. -/
  | expected (production : Category) (found : Text)
  /-- A production was opened and its closing delimiter is missing. -/
  | unterminated (production : Category) (delimiter : Char) (place : Place)
  /-- Text remains after a statement. -/
  | trailing (found : Text)
  /-- A command or a collection nests deeper than allowed. -/
  | tooDeep (place : Text)
deriving DecidableEq, Repr

/-- Why a source is not a statement. Offsets count bytes. -/
inductive ParseError where
  | expected (production : Category) (found : Text) (offset : Nat)
  | unterminated (production : Category) (delimiter : Char) (offset : Nat)
  | trailingInput (found : Text) (offset : Nat)
  | tooDeep (limit offset : Nat)
deriving DecidableEq, Repr

/-- The parse error of a fault in a source of the given size, under a limit on
the depth of nesting. -/
def Fault.locate (limit sourceSize : Nat) : Fault → ParseError
  | expected c found => .expected c found ((Place.start found).offset sourceSize)
  | unterminated c delimiter place => .unterminated c delimiter (place.offset sourceSize)
  | trailing found => .trailingInput found ((Place.start found).offset sourceSize)
  | tooDeep t => .tooDeep limit ((Place.start t).offset sourceSize)

namespace ParseError

/-- Where the error is. -/
def offset : ParseError → Nat
  | expected _ _ offset => offset
  | unterminated _ _ offset => offset
  | trailingInput _ offset => offset
  | tooDeep _ offset => offset

/-- The number of characters that a message shows of the text it found. -/
def previewLength : Nat := 24

/-- The text that was found, cut short after `previewLength` characters. -/
def preview (found : Text) : Text :=
  if found.isEmpty then "end of input".toList
  else if found.length ≤ previewLength then "'".toList ++ found ++ "'".toList
  else "'".toList ++ found.take previewLength ++ "...'".toList

/-- The wording of the error. -/
def message : ParseError → Text
  | expected c found offset =>
    "expected ".toList ++ c.name.toList ++ " at offset ".toList ++ Text.ofNat offset ++
      ", found ".toList ++ preview found
  | unterminated c delimiter offset =>
    "unterminated ".toList ++ c.name.toList ++ " at offset ".toList ++ Text.ofNat offset ++
      ": missing closing \x60".toList ++ [delimiter, '\x60']
  | trailingInput found offset =>
    "unexpected input at offset ".toList ++ Text.ofNat offset ++ ": ".toList ++ preview found
  | tooDeep limit offset =>
    "nesting exceeds ".toList ++ Text.ofNat limit ++ " levels at offset ".toList ++
      Text.ofNat offset

end ParseError

end QueryTree
