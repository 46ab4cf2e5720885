import QueryTree.Text.Blank

/-!
# Categories

Every node of a query tree carries one grammar category. A category has a
lower-case name with hyphens, under which it is printed, and it can be looked
up by that name.
-/

namespace QueryTree

/-- The closed set of grammar categories. -/
inductive Category where
  /-- The root of a query. -/
  | statement
  /-- Keywords, their items and the command that continues them. -/
  | command
  | reservedWord
  /-- Keywords joined by whitespace. -/
  | reservedWordSequence
  | whitespace
  /-- A name, a placeholder or a literal. -/
  | selectorItem
  | itemName
  /-- A name between double quotes. -/
  | itemNameCaseSensitive
  | itemNameCaseInsensitive
  /-- The `.` of a qualified name. -/
  | accessor
  /-- A number, a string or a hexadecimal blob. -/
  | literal
  | string
  | quote
  /-- The body of a string, its doubled quotes kept as written. -/
  | inputCharacters
  | number
  /-- Hexadecimal digits and hyphens, as in a UUID. -/
  | hexBlob
  | symbol
  /-- A comparison other than `=`. -/
  | operator
  /-- The bind marker `?`. -/
  | placeholderInject
  | whereKeyword
  | condition
  /-- Comparisons joined by `AND` and `OR`. -/
  | conditionChain
  | conditionItem
  | arrayLiteral
  | arrayStart
  | arrayEnd
  | mapLiteral
  | mapStart
  | mapEnd
  | mapEntry
  /-- The `:` of a map entry. -/
  | mapSeparator
  /-- A name that refers to a column. -/
  | fieldName
  /-- A name that refers to a table. -/
  | tableName
  | chars
  /-- The `;` that ends a query. -/
  | terminator
deriving DecidableEq, Repr, Inhabited

namespace Category

/-- All categories, in the order of their declaration. -/
def all : List Category :=
  [statement, command, reservedWord, reservedWordSequence, whitespace, selectorItem,
   itemName, itemNameCaseSensitive, itemNameCaseInsensitive, accessor, literal, string,
   quote, inputCharacters, number, hexBlob, symbol, operator, placeholderInject,
   whereKeyword, condition, conditionChain, conditionItem, arrayLiteral, arrayStart,
   arrayEnd, mapLiteral, mapStart, mapEnd, mapEntry, mapSeparator, fieldName, tableName,
   chars, terminator]

theorem mem_all (c : Category) : c ∈ all := by
  cases c <;> decide

/-- The printed name. -/
def name : Category → String
  | statement => "statement"
  | command => "command"
  | reservedWord => "reserved-word"
  | reservedWordSequence => "reserved-word-sequence"
  | whitespace => "whitespace"
  | selectorItem => "selector-item"
  | itemName => "item-name"
  | itemNameCaseSensitive => "item-name-case-sensitive"
  | itemNameCaseInsensitive => "item-name-case-insensitive"
  | accessor => "accessor"
  | literal => "literal"
  | string => "string"
  | quote => "quote"
  | inputCharacters => "input-characters"
  | number => "number"
  | hexBlob => "hex-blob"
  | symbol => "symbol"
  | operator => "operator"
  | placeholderInject => "placeholder-inject"
  | whereKeyword => "where-keyword"
  | condition => "condition"
  | conditionChain => "condition-chain"
  | conditionItem => "condition-item"
  | arrayLiteral => "array-literal"
  | arrayStart => "array-start"
  | arrayEnd => "array-end"
  | mapLiteral => "map-literal"
  | mapStart => "map-start"
  | mapEnd => "map-end"
  | mapEntry => "map-entry"
  | mapSeparator => "map-separator"
  | fieldName => "field-name"
  | tableName => "table-name"
  | chars => "chars"
  | terminator => "terminator"

/-- The form in which a typed name is compared: blanks at the ends dropped,
letters in lower case, and hyphens for underscores. -/
def canonicalName (typed : Text) : Text :=
  (Text.lower (Text.trim typed)).map fun c => if c = '_' then '-' else c

/-- The category with a typed name. -/
def ofName? (typed : Text) : Option Category :=
  all.find? fun c => c.name.toList == canonicalName typed

/-- Every category is found under its printed name. -/
theorem ofName?_name (c : Category) : ofName? c.name.toList = some c := by
  cases c <;> decide

end Category

/-- What is said about a typed name that no category has. -/
def unknownCategoryMessage (typed : Text) : Text :=
  "unknown category '".toList ++ typed ++ "'".toList

end QueryTree
