import QueryTree.Text

/-!
# JSON

JSON values and their two written forms: without spaces, and indented by two
spaces with a line for every member. The members of an object are written in the
order in which they are listed.
-/

namespace QueryTree

/-- A JSON value without numbers. -/
inductive JsonValue where
  | boolean (value : Bool)
  | string (value : Text)
  | array (items : List JsonValue)
  | object (members : List (Text × JsonValue))

namespace JsonValue

/-- A character inside a string. Quotes, backslashes and control characters are
escaped. -/
def escapeChar (c : Char) : Text :=
  match c with
  | '"' => ['\\', '"']
  | '\\' => ['\\', '\\']
  | '\n' => ['\\', 'n']
  | '\r' => ['\\', 'r']
  | '\t' => ['\\', 't']
  | _ =>
    if c.toNat = 8 then ['\\', 'b']
    else if c.toNat = 12 then ['\\', 'f']
    else if c.toNat < 32 then
      "\\u00".toList ++ [Nat.digitChar (c.toNat / 16), Nat.digitChar (c.toNat % 16)]
    else [c]

/-- A string between double quotes. -/
def quoteString (t : Text) : Text :=
  '"' :: (t.flatMap escapeChar ++ ['"'])

mutual

/-- The written form without spaces. -/
def compact : JsonValue → Text
  | boolean true => "true".toList
  | boolean false => "false".toList
  | string t => quoteString t
  | array [] => ['[', ']']
  | array (v :: vs) => '[' :: (compact v ++ compactItems vs)
  | object [] => ['\x7b', '\x7d']
  | object ((k, v) :: ms) => '\x7b' :: (quoteString k ++ ':' :: (compact v ++ compactMembers ms))

/-- The items after the first, and the closing bracket. -/
def compactItems : List JsonValue → Text
  | [] => [']']
  | v :: vs => ',' :: (compact v ++ compactItems vs)

/-- The members after the first, and the closing brace. -/
def compactMembers : List (Text × JsonValue) → Text
  | [] => ['\x7d']
  | (k, v) :: ms => ',' :: (quoteString k ++ ':' :: (compact v ++ compactMembers ms))

end

/-- A new line and its indentation. -/
def newLine (level : Nat) : Text :=
  '\n' :: List.replicate (2 * level) ' '

mutual

/-- The indented form at a level of nesting. -/
def indented (level : Nat) : JsonValue → Text
  | boolean true => "true".toList
  | boolean false => "false".toList
  | string t => quoteString t
  | array [] => ['[', ']']
  | array (v :: vs) =>
    '[' :: (newLine (level + 1) ++ indented (level + 1) v ++ indentedItems level vs)
  | object [] => ['\x7b', '\x7d']
  | object ((k, v) :: ms) =>
    '\x7b' :: (newLine (level + 1) ++ quoteString k ++ [':', ' '] ++ indented (level + 1) v ++
      indentedMembers level ms)

/-- The items after the first, and the closing bracket on a line of its own. -/
def indentedItems (level : Nat) : List JsonValue → Text
  | [] => newLine level ++ [']']
  | v :: vs =>
    ',' :: (newLine (level + 1) ++ indented (level + 1) v ++ indentedItems level vs)

/-- The members after the first, and the closing brace on a line of its own. -/
def indentedMembers (level : Nat) : List (Text × JsonValue) → Text
  | [] => newLine level ++ ['\x7d']
  | (k, v) :: ms =>
    ',' :: (newLine (level + 1) ++ quoteString k ++ [':', ' '] ++ indented (level + 1) v ++
      indentedMembers level ms)

end

/-- A value in one of its two written forms. -/
def render (pretty : Bool) (v : JsonValue) : Text :=
  if pretty then v.indented 0 else v.compact

end JsonValue

end QueryTree
