import QueryTree.Grammar.Spacing

/-!
# Keyword sequences

A command opens with a run of keywords. A clause word always belongs to the run.
A keyword that is also a name belongs to it only next to the keyword that it is
paired with. `WHERE` never belongs to it, for it opens a condition.
-/

namespace QueryTree.Grammar

open Recognizer

/-- Any keyword but `WHERE`. -/
def commandWord : Recognizer Node :=
  word .reservedWord fun w =>
    match Keyword.ofText? w with
    | none | some .WHERE => false
    | some _ => true

/-- Whether two words in a row are paired keywords. -/
def arePaired (first second : Text) : Bool :=
  match Keyword.ofText? first, Keyword.ofText? second with
  | some k, some l => k.pairs l
  | _, _ => false

/-- Whether the keyword after optional whitespace is paired with `first`. -/
def partnerFollows (first rest : Text) : Bool :=
  match commandWord (rest.dropWhile Text.isLayout) with
  | .found n _ => arePaired first n.spelling
  | _ => false

/-- The first word of a sequence: a clause word, or a keyword whose partner
follows it. -/
def leadingWord : Recognizer Node := fun t =>
  (commandWord t).bind fun n rest =>
    if isClauseWord n.spelling || partnerFollows n.spelling rest then .found n rest else .absent

/-- A further word of a sequence after the word `last`. -/
def continuingWord (last : Text) : Recognizer Node :=
  orElse
    (fun t => (commandWord t).bind fun n rest =>
      if arePaired last n.spelling then .found n rest else .absent)
    leadingWord

/-- The last keyword read so far. -/
def lastWord (last : Text) (n : Node) : Text :=
  if n.category = .reservedWord then n.spelling else last

/-- The keywords that open a command. -/
def reservedWordSequenceUnder (demand : Demand) : Recognizer Node :=
  node .reservedWordSequence ((leadingWord.under demand .reservedWordSequence).andThen
    fun first => repeated (fun last => spaced (continuingWord last)) lastWord first.spelling)

/-- The keywords that open a command, if there are any. -/
def reservedWordSequence : Recognizer Node :=
  reservedWordSequenceUnder .optional

/-- The keywords of a sequence, in order. -/
def keywordsOf (sequence : Node) : List Keyword :=
  (sequence.children.filter fun n => n.category = .reservedWord).filterMap fun n =>
    Keyword.ofText? n.spelling

end QueryTree.Grammar
