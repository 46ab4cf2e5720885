import QueryTree.Grammar.Spacing

/-!
# Names, literals and selectors

A selector is a name, perhaps qualified, or a placeholder, or a literal. A run of
digits and hexadecimal letters that reaches further than the name or the number
at its front is read as one blob, so that a UUID is a single literal.
-/

namespace QueryTree.Grammar

open Recognizer

/-- A name without quotes: letters and digits, no digit first, no clause word. -/
def itemNameCaseInsensitiveUnder (demand : Demand) : Recognizer Node :=
  wordUnder demand .itemNameCaseInsensitive fun w =>
    !w.head?.any Char.isDigit && !isClauseWord w

/-- A name without quotes, if there is one. -/
def itemNameCaseInsensitive : Recognizer Node :=
  itemNameCaseInsensitiveUnder .optional

/-- A name between double quotes, made of letters and digits alone. Once the
quote is opened it has to be closed, and only then the name may still be missing. -/
def itemNameCaseSensitiveUnder (demand : Demand) : Recognizer Node
  | '"' :: t =>
    match t.dropWhile (· != '"') with
    | [] => .broken (.unterminated .itemNameCaseSensitive '"' (.finish ('"' :: t)))
    | _ :: rest =>
      let body := t.takeWhile (· != '"')
      if !body.isEmpty && body.all Char.isAlphanum then
        .found (Node.leaf .itemNameCaseSensitive ('"' :: (body ++ ['"'])) rest) rest
      else missing demand .itemNameCaseSensitive ('"' :: t)
  | t => missing demand .itemNameCaseSensitive t

/-- A name between double quotes, if there is one. -/
def itemNameCaseSensitive : Recognizer Node :=
  itemNameCaseSensitiveUnder .optional

/-- A name in either form. It is missing only where it has neither. -/
def itemNameUnder (demand : Demand) : Recognizer Node :=
  wrap .itemName ((itemNameCaseSensitive.orElse itemNameCaseInsensitive).under demand .itemName)

/-- A name, if there is one. -/
def itemName : Recognizer Node :=
  itemNameUnder .optional

/-- Whether a text has both a digit and a letter. -/
def isMixed (w : Text) : Bool :=
  w.any Char.isDigit && w.any Char.isAlpha

/-- A blob with digits and letters that is longer than a given length. -/
def mixedBlob (length : Nat) : Recognizer Node := fun t =>
  (hexBlob t).bind fun n rest =>
    if length < n.spelling.length && isMixed n.spelling then .found n rest else .absent

/-- The blob that reaches further than `r` does from the same place. -/
def blobBeyond (r : Recognizer Node) : Recognizer Node := fun t =>
  (r t).bind fun n _ => mixedBlob n.spelling.length t

/-- A number, a string or a hexadecimal blob. -/
def literalUnder (demand : Demand) : Recognizer Node :=
  wrap .literal (((((blobBeyond number).orElse number).orElse string).orElse hexBlob).under
    demand .literal)

/-- A literal, if there is one. -/
def literal : Recognizer Node :=
  literalUnder .optional

/-- A name with an optional second part after a dot. The node has the category
`role`, which says what the name refers to. -/
def qualifiedName (role : Category) : Recognizer Node :=
  node role ((one itemName).seq
    (optional ((one accessor).seq (one (itemName.required .itemName)))))

/-- A selector. A name takes the category `role`, and anything else is a plain
selector item. What is no name has to be a placeholder or a literal if the selector
is demanded. -/
def selectorUnder (demand : Demand) (role : Category) : Recognizer Node :=
  orElse (wrap .selectorItem (wrap .literal (blobBeyond itemName)))
    (orElse (qualifiedName role)
      (wrap .selectorItem ((placeholder.orElse literal).under demand .selectorItem)))

/-- A selector, if there is one. -/
def selector (role : Category) : Recognizer Node :=
  selectorUnder .optional role

/-- A selector whose names refer to nothing in particular. -/
def selectorItemUnder (demand : Demand) : Recognizer Node :=
  selectorUnder demand .selectorItem

/-- A selector whose names refer to nothing in particular, if there is one. -/
def selectorItem : Recognizer Node :=
  selector .selectorItem

end QueryTree.Grammar
