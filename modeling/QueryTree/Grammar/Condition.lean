import QueryTree.Grammar.Selector

/-!
# Conditions

`WHERE` and comparisons joined by `AND` and `OR`.
-/

namespace QueryTree.Grammar

open Recognizer

/-- A selector, a comparison and a selector. After the first selector the rest has
to be there. -/
def conditionItemUnder (demand : Demand) : Recognizer Node :=
  node .conditionItem (((one (selectorItem.under demand .conditionItem)).seq
    (spaced ((operator.orElse symbol).required .symbol))).seq
    (spaced (selectorItem.required .selectorItem)))

/-- A comparison, if there is one. -/
def conditionItem : Recognizer Node :=
  conditionItemUnder .optional

/-- The words that join comparisons. -/
def conjunction : Recognizer Node :=
  oneOf [Keyword.AND.spelling, Keyword.OR.spelling] .reservedWord

/-- Comparisons joined by conjunctions. The first of them takes the demand, and whitespace
and a comparison have to follow each conjunction. -/
def conditionChain (demand : Demand) : Recognizer Node :=
  node .conditionChain ((one (conditionItemUnder demand)).seq
    (many (((spaced conjunction).seq (one (whitespace.required .whitespace))).seq
      (one (conditionItem.required .conditionItem)))))

/-- `WHERE`, whitespace and a chain of comparisons. -/
def conditionUnder (demand : Demand) : Recognizer Node :=
  node .condition (((one (whereKeyword.under demand .condition)).seq
    (one (whitespace.required .whitespace))).seq (one (conditionChain .mandatory)))

/-- A condition, if there is one. -/
def condition : Recognizer Node :=
  conditionUnder .optional

end QueryTree.Grammar
