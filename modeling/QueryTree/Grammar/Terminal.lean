import QueryTree.Keyword
import QueryTree.Recognizer.Basic

/-!
# Terminals

The productions that are read character by character, and the string literal.
-/

namespace QueryTree.Grammar

open Recognizer

/-- A leaf over the longest run of characters of a class. The run is not empty. -/
def run (c : Category) (p : Char → Bool) : Recognizer Node := fun t =>
  match t.takeWhile p with
  | [] => .absent
  | word => .found (Node.leaf c word (t.dropWhile p)) (t.dropWhile p)

/-- A leaf over a single character of a class. -/
def single (c : Category) (p : Char → Bool) : Recognizer Node
  | [] => .absent
  | x :: t => if p x then .found (Node.leaf c [x] t) t else .absent

/-- A word of letters and digits that satisfies a test. It is missing where there is no word,
and also where the test fails. -/
def wordUnder (demand : Demand) (c : Category) (accept : Text → Bool) : Recognizer Node := fun t =>
  let w := t.takeWhile Char.isAlphanum
  if !w.isEmpty && accept w then
    let rest := t.dropWhile Char.isAlphanum
    .found (Node.leaf c w rest) rest
  else missing demand c t

/-- A word that satisfies a test, if there is one. -/
def word (c : Category) (accept : Text → Bool) : Recognizer Node :=
  wordUnder .optional c accept

theorem word_eq (c : Category) (accept : Text → Bool) (t : Text) : word c accept t =
    if !(t.takeWhile Char.isAlphanum).isEmpty && accept (t.takeWhile Char.isAlphanum) then
      .found (Node.leaf c (t.takeWhile Char.isAlphanum) (t.dropWhile Char.isAlphanum))
        (t.dropWhile Char.isAlphanum)
    else .absent := rfl

/-- Whitespace between the words of a query. -/
def whitespace : Recognizer Node :=
  run .whitespace Text.isLayout

/-- Letters and digits. -/
def chars : Recognizer Node :=
  run .chars Char.isAlphanum

/-- Decimal digits. -/
def number : Recognizer Node :=
  run .number Char.isDigit

/-- The characters of a hexadecimal blob after its first. -/
def isBlobChar (c : Char) : Bool :=
  Text.isHexDigit c || c == '-'

/-- Hexadecimal digits and hyphens, a digit first. -/
def hexBlob : Recognizer Node := fun t =>
  if t.head?.any Text.isHexDigit then run .hexBlob isBlobChar t else .absent

/-- The characters that stand for themselves in a query. -/
def symbols : Text :=
  ['=', '+', '-', '/', '*', '(', ')', '\x7b', '\x7d', ',', '[', ']']

/-- A single symbol. -/
def symbol : Recognizer Node :=
  single .symbol fun c => symbols.contains c

/-- One given character as a production of its own. -/
def delimiter (c : Char) (category : Category) : Recognizer Node :=
  single category fun x => x == c

/-- The `.` of a qualified name. -/
def accessor : Recognizer Node :=
  delimiter '.' .accessor

/-- The bind marker. -/
def placeholder : Recognizer Node :=
  delimiter '?' .placeholderInject

/-- The `:` between a key and its value. -/
def mapSeparator : Recognizer Node :=
  delimiter ':' .mapSeparator

/-- The `;` that ends a query. -/
def terminator : Recognizer Node :=
  delimiter ';' .terminator

/-- A comparison other than `=`, the longest that fits. -/
def operator : Recognizer Node
  | '<' :: '=' :: t => .found (Node.leaf .operator ['<', '='] t) t
  | '>' :: '=' :: t => .found (Node.leaf .operator ['>', '='] t) t
  | '!' :: '=' :: t => .found (Node.leaf .operator ['!', '='] t) t
  | '<' :: t => .found (Node.leaf .operator ['<'] t) t
  | '>' :: t => .found (Node.leaf .operator ['>'] t) t
  | _ => .absent

/-- Any keyword of the vocabulary. -/
def reservedWord : Recognizer Node :=
  word .reservedWord isReservedWord

/-- One of the given words, in any case. -/
def oneOf (words : List Text) (c : Category) : Recognizer Node :=
  word c fun w => words.any fun known => Text.sameWord known w

/-- The keyword that opens a condition. -/
def whereKeyword : Recognizer Node :=
  oneOf [Keyword.WHERE.spelling] .whereKeyword

/-- Splits a text before the first quote that is not doubled. -/
def splitQuoted : Text → Text × Text
  | [] => ([], [])
  | '\'' :: '\'' :: t => ('\'' :: '\'' :: (splitQuoted t).1, (splitQuoted t).2)
  | '\'' :: t => ([], '\'' :: t)
  | c :: t => (c :: (splitQuoted t).1, (splitQuoted t).2)

/-- Splitting loses nothing. -/
theorem splitQuoted_append (t : Text) : (splitQuoted t).1 ++ (splitQuoted t).2 = t := by
  fun_induction splitQuoted t with
  | case1 => rfl
  | case2 t ih => simp [ih]
  | case3 t => rfl
  | case4 c t _ _ ih => simp [ih]

/-- The body of a string up to its closing quote. Two quotes in a row stand for
one, and belong to the body. -/
def inputCharacters : Recognizer Node := fun t =>
  match splitQuoted t with
  | ([], _) => .absent
  | (body, rest) => .found (Node.leaf .inputCharacters body rest) rest

/-- A quote at either end of a string. -/
def quote : Recognizer Node :=
  delimiter '\'' .quote

/-- A string between quotes. Once it is opened it has to be closed. -/
def stringUnder (demand : Demand) : Recognizer Node :=
  node .string (((one (quote.under demand .string)).seq (optional (one inputCharacters))).seq
    (one (quote.orFault fun t => .unterminated .string '\'' (.start t))))

/-- A string, if there is one. -/
def string : Recognizer Node :=
  stringUnder .optional

end QueryTree.Grammar
