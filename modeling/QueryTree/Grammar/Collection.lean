import QueryTree.Grammar.Selector

/-!
# Collections

Arrays and maps. An opening bracket that is followed neither by an element nor
by the closing bracket does not open a collection, and the same holds for a brace
without a first entry. After the first element the collection has to go on, and
it has to be closed. A collection takes up one level of nesting.
-/

namespace QueryTree.Grammar

open Recognizer

/-- A comma between elements. -/
def comma : Recognizer Node :=
  delimiter ',' .symbol

/-- The elements of a collection and its closing delimiter. The first element is
read by `first`, and those after a comma by `next`. -/
def elements (first next close : Recognizer Node) (unclosed : Text → Fault) :
    Recognizer (List Node) :=
  orElse
    (((spaced first).seq (many ((spaced comma).seq (spaced next)))).seq
      (spaced (close.orFault unclosed)))
    (spaced close)

/-- A collection of category `c` with its delimiters. It is missing where it is not opened,
and also where neither an element nor the closing delimiter follows. The last argument is the
number of levels of nesting left. -/
def collectionUnder (demand : Demand) (c : Category) (opening first next : Recognizer Node)
    (closing : Char) (finish : Category) : Nat → Recognizer Node
  | 0 => refused (opening.under demand c)
  | _ + 1 => fun t =>
    node c ((one (opening.under demand c)).seq
      ((elements first next (delimiter closing finish)
        fun rest => .unterminated c closing (.start rest)).orFaultUnder demand
          fun _ => .expected c t)) t

/-- `[` elements `]`. -/
def arrayLiteralUnder (demand : Demand) : Nat → Recognizer Node :=
  collectionUnder demand .arrayLiteral (delimiter '[' .arrayStart) selectorItem
    (selectorItem.required .selectorItem) ']' .arrayEnd

/-- An array, if there is one. -/
def arrayLiteral (room : Nat) : Recognizer Node :=
  arrayLiteralUnder .optional room

/-- A key, a colon and a value. The value has to be there once the colon is, and
the key and the colon have to be there if the entry is demanded. -/
def mapEntry (demand : Demand) : Recognizer Node :=
  node .mapEntry (((one (selectorItem.under demand .selectorItem)).seq
    (under demand .mapSeparator (spaced mapSeparator))).seq
    (spaced (selectorItem.required .selectorItem)))

/-- A brace, entries and a closing brace. -/
def mapLiteralUnder (demand : Demand) : Nat → Recognizer Node :=
  collectionUnder demand .mapLiteral (delimiter '\x7b' .mapStart) (mapEntry .optional)
    (mapEntry .mandatory) '\x7d' .mapEnd

/-- A map, if there is one. -/
def mapLiteral (room : Nat) : Recognizer Node :=
  mapLiteralUnder .optional room

end QueryTree.Grammar
