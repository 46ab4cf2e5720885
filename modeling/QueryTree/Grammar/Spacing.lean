import QueryTree.Grammar.Terminal

/-!
# Spacing

Most parts of a production may be preceded by whitespace. The whitespace becomes
a part of its own, and it is read only if the part after it is there.
-/

namespace QueryTree.Grammar

open Recognizer

/-- A node after optional whitespace. -/
def spaced (r : Recognizer Node) : Recognizer (List Node) :=
  (optional (one whitespace)).seq (one r)

end QueryTree.Grammar
