import QueryTree.Text

/-!
# Quoted text

Text is written between single quotes, and a quote inside it is doubled.
-/

namespace QueryTree.Text

/-- The text with every single quote written twice. -/
def doubleQuotes : Text → Text
  | [] => []
  | c :: t => if c = '\'' then '\'' :: '\'' :: doubleQuotes t else c :: doubleQuotes t

/-- The string literal that stands for a text. -/
def quoted (t : Text) : Text :=
  '\'' :: (doubleQuotes t ++ ['\''])

end QueryTree.Text
