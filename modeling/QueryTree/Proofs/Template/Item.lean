import QueryTree.Proofs.Template.Noted

/-!
# Items of query templates

Query templates are put together from whitespace, names, bind markers and lists in
parentheses. Each of them is read as one would expect, whatever the spacing and whatever
follows.
-/

namespace QueryTree

open Recognizer Grammar

/-- Whitespace, which may be empty. -/
structure Gap where
  text : Text
  layout : ∀ x ∈ text, Text.isLayout x = true

/-- A name without quotes: a letter, then letters and digits, and no clause word. -/
structure Identifier where
  text : Text
  letter : text.head?.any Char.isAlpha = true
  word : ∀ x ∈ text, x.isAlphanum = true
  free : isClauseWord text = false

/-- An identifier, or two with a dot between them. -/
inductive Reference where
  | plain (name : Identifier)
  | qualified (scope name : Identifier)

/-- How a reference is written. -/
def Reference.text : Reference → Text
  | plain name => name.text
  | qualified scope name => scope.text ++ '.' :: name.text

/-- Whether a text may follow a reference in a template: no name, blob or qualification goes
on there, and no word is paired with what comes next. -/
structure ClosesName (t : Text) : Prop where
  ends : EndsWord t
  hyphen : t.head? ≠ some '-'
  dot : t.head? ≠ some '.'
  unpaired : ∀ word, partnerFollows word t = false

/-- The characters around and between the entries of a list. -/
def isListMark (x : Char) : Bool :=
  x == '(' || x == ')' || x == ','

/-- The characters that may come after a name, perhaps behind whitespace: those of lists and
comparisons. -/
def isPunctuation (x : Char) : Bool :=
  isListMark x || x == '=' || x == '<' || x == '>' || x == '!'

section Gaps

variable {r : Recognizer Node} {n : Node} {t rest : Text} {x : Char}

theorem Gap.dropWhile_append (g : Gap) (h : ∀ x ∈ t.head?, Text.isLayout x = false) :
    (g.text ++ t).dropWhile Text.isLayout = t := by
  rw [List.dropWhile_append_of_pos g.layout]
  cases t with
  | nil => rfl
  | cons x t => exact List.dropWhile_cons_of_neg (by simp [h x rfl])

/-- Whitespace in front of a text is a part of its own. -/
theorem Gap.flatten_gapNodes (g : Gap) (h : ∀ x ∈ t.head?, Text.isLayout x = false) :
    ((gapNodes (g.text ++ t)).map Node.spelling).flatten = g.text := by
  have htake : (g.text ++ t).takeWhile Text.isLayout = g.text := by
    rw [List.takeWhile_append_of_pos g.layout, takeWhile_eq_nil h, List.append_nil]
  rw [gapNodes, htake]
  cases g.text with
  | nil => rfl
  | cons x gap => exact List.append_nil _

theorem filter_gapNodes (t : Text) :
    (gapNodes t).filter (fun m => m.category ≠ .whitespace) = [] := by
  unfold gapNodes
  split <;> rfl

theorem Gap.spaced_append_found (g : Gap) (hhead : ∀ x ∈ t.head?, Text.isLayout x = false)
    (h : r t = .found n rest) :
    Grammar.spaced r (g.text ++ t) = .found (gapNodes (g.text ++ t) ++ [n]) rest := by
  rw [spaced_eq, g.dropWhile_append hhead, h, Reading.map_found]

theorem Gap.spaced_append_absent (g : Gap) (hhead : ∀ x ∈ t.head?, Text.isLayout x = false)
    (h : r t = .absent) : Grammar.spaced r (g.text ++ t) = .absent := by
  rw [spaced_eq, g.dropWhile_append hhead, h, Reading.map_absent]

/-- Whitespace at the end of a text stands in front of nothing. -/
theorem Gap.spaced_eq_absent (g : Gap) (h : r [] = .absent) :
    Grammar.spaced r g.text = .absent := by
  have hdrop := g.dropWhile_append (t := []) nofun
  rw [List.append_nil] at hdrop
  rw [spaced_eq, hdrop, h, Reading.map_absent]

theorem isAlphanum_eq_false_of_isLayout (h : Text.isLayout x = true) : x.isAlphanum = false := by
  simp only [Text.isLayout, Bool.or_eq_true, beq_iff_eq] at h
  rcases h with ((rfl | rfl) | rfl) | rfl <;> decide

theorem isLayout_eq_false_of_isAlphanum (h : x.isAlphanum = true) : Text.isLayout x = false := by
  by_contra hx
  rw [isAlphanum_eq_false_of_isLayout (Bool.eq_true_of_not_eq_false hx)] at h
  cases h

/-- Whitespace does not go on into a word. -/
theorem isLayout_head?_word {w : Text} (hne : w ≠ []) (hw : ∀ y ∈ w, y.isAlphanum = true)
    (rest : Text) : ∀ y ∈ (w ++ rest).head?, Text.isLayout y = false := by
  obtain ⟨y, v, rfl⟩ := List.exists_cons_of_ne_nil hne
  rintro _ ⟨⟩
  exact isLayout_eq_false_of_isAlphanum (hw y List.mem_cons_self)

theorem eq_of_isListMark (hx : isListMark x = true) : x = '(' ∨ x = ')' ∨ x = ',' := by
  simpa [isListMark, or_assoc] using hx

theorem isPunctuation_of_isListMark (hx : isListMark x = true) : isPunctuation x = true := by
  simp [isPunctuation, hx]

/-- Punctuation is part of no word, blob, qualification or whitespace. -/
theorem of_isPunctuation (hx : isPunctuation x = true) :
    x.isAlphanum = false ∧ x ≠ '-' ∧ x ≠ '.' ∧ Text.isLayout x = false := by
  simp only [isPunctuation, isListMark, Bool.or_eq_true, beq_iff_eq] at hx
  rcases hx with (((((rfl | rfl) | rfl) | rfl) | rfl) | rfl) | rfl <;> decide

theorem isLayout_head?_punctuation (hx : isPunctuation x = true) (t : Text) :
    ∀ y ∈ (x :: t).head?, Text.isLayout y = false := by
  rintro y ⟨⟩
  exact (of_isPunctuation hx).2.2.2

theorem endsWord_punctuation (hx : isPunctuation x = true) (t : Text) : EndsWord (x :: t) := by
  rintro y ⟨⟩
  exact (of_isPunctuation hx).1

/-- Before what is no word nothing is paired. -/
theorem partnerFollows_eq_false (h : EndsWord (t.dropWhile Text.isLayout)) (word : Text) :
    partnerFollows word t = false := by
  rw [partnerFollows, commandWord, word_eq_absent h]

/-- Behind whitespace a list or a comparison goes on. -/
theorem Gap.endsWord_dropWhile (g : Gap) (hx : isPunctuation x = true) (t : Text) :
    EndsWord ((g.text ++ x :: t).dropWhile Text.isLayout) := by
  rw [g.dropWhile_append (isLayout_head?_punctuation hx t)]
  exact endsWord_punctuation hx t

/-- A text behind whitespace begins with whitespace or as it does without. -/
theorem Gap.forall_head? {P : Char → Prop} (g : Gap) (hgap : ∀ y, Text.isLayout y = true → P y)
    (ht : ∀ y ∈ t.head?, P y) : ∀ y ∈ (g.text ++ t).head?, P y := by
  intro y hy
  cases hg : g.text with
  | nil =>
      rw [hg] at hy
      exact ht y hy
  | cons z gap =>
      rw [hg] at hy
      obtain rfl : z = y := Option.some.inj hy
      exact hgap z (g.layout z (hg ▸ List.mem_cons_self))

/-- A list or a comparison goes on after a name, perhaps behind whitespace. -/
theorem Gap.closesName (g : Gap) (hx : isPunctuation x = true) (t : Text) :
    ClosesName (g.text ++ x :: t) := by
  have hhead : ∀ y ∈ (g.text ++ x :: t).head?, y.isAlphanum = false ∧ y ≠ '-' ∧ y ≠ '.' := by
    refine g.forall_head? (fun y hy => ⟨isAlphanum_eq_false_of_isLayout hy, ?_, ?_⟩) ?_
    · rintro rfl
      cases hy
    · rintro rfl
      cases hy
    · obtain ⟨halnum, hhyphen, hdot, -⟩ := of_isPunctuation hx
      rintro y ⟨⟩
      exact ⟨halnum, hhyphen, hdot⟩
  exact ⟨fun y hy => (hhead y hy).1, fun h => (hhead _ h).2.1 rfl,
    fun h => (hhead _ h).2.2 rfl, partnerFollows_eq_false (g.endsWord_dropWhile hx t)⟩

end Gaps

section Names

variable {keep : Category → Bool} {rest : Text}

theorem isDigit_eq_false_of_isAlpha {x : Char} (h : x.isAlpha = true) : x.isDigit = false := by
  delta Char.isAlpha Char.isUpper Char.isLower at h
  delta Char.isDigit
  simp only [Bool.or_eq_true, Bool.and_eq_true, Bool.and_eq_false_iff, decide_eq_true_eq,
    decide_eq_false_iff_not, UInt32.le_iff_toNat_le, ge_iff_le] at h ⊢
  have hA : 'A'.val.toNat = 65 := rfl
  have ha : 'a'.val.toNat = 97 := rfl
  have h9 : '9'.val.toNat = 57 := rfl
  omega

theorem Identifier.exists_cons (w : Identifier) : ∃ x v, w.text = x :: v ∧ x.isAlpha = true := by
  have hletter := w.letter
  cases hw : w.text with
  | nil => rw [hw] at hletter; cases hletter
  | cons x v =>
      rw [hw] at hletter
      exact ⟨x, v, rfl, hletter⟩

theorem Identifier.ne_nil (w : Identifier) : w.text ≠ [] := by
  obtain ⟨x, v, hw, -⟩ := w.exists_cons
  exact hw ▸ List.cons_ne_nil x v

theorem Identifier.isRun (w : Identifier) (h : EndsWord rest) :
    Text.IsRun Char.isAlphanum w.text rest :=
  ⟨w.ne_nil, w.word, h⟩

/-- The node of an identifier in front of a rest. -/
def Identifier.node (w : Identifier) (rest : Text) : Node :=
  Node.branch .itemName (Node.chain [Node.leaf .itemNameCaseInsensitive w.text rest]) rest

@[simp] theorem Identifier.node_spelling (w : Identifier) (rest : Text) :
    (w.node rest).spelling = w.text := by
  simp [node, Node.branch, Node.map_spelling_chain, Node.leaf]

/-- The node of a reference in front of a rest, by what it refers to. -/
def Reference.node (role : Category) (rest : Text) : Reference → Node
  | plain name => Node.branch role (Node.chain [name.node rest]) rest
  | qualified scope name =>
    Node.branch role (Node.chain [scope.node ('.' :: (name.text ++ rest)),
      Node.leaf .accessor ['.'] (name.text ++ rest), name.node rest]) rest

@[simp] theorem Reference.node_spelling (role : Category) (r : Reference) (rest : Text) :
    (r.node role rest).spelling = r.text := by
  cases r <;> simp [node, Node.branch, Node.map_spelling_chain, text, Node.leaf]

theorem Identifier.noted_node (hskip : Node.SkipsNames keep) (w : Identifier) (rest : Text) :
    (w.node rest).noted keep = [] := by
  rw [node, Node.noted_branch hskip.itemName, Node.flatMap_noted_chain, List.flatMap_singleton,
    Node.noted_leaf, hskip.itemNameCaseInsensitive]
  rfl

/-- A reference is noted by its text, as a whole. -/
theorem Reference.noted_node (hskip : Node.SkipsNames keep) {role : Category}
    (hrole : keep role = true) (r : Reference) (rest : Text) :
    (r.node role rest).noted keep = [(role, r.text)] := by
  rw [← r.node_spelling role rest]
  cases r with
  | plain name =>
      rw [node, Node.noted_branch_of_keep hrole, Node.flatMap_noted_chain,
        List.flatMap_singleton, name.noted_node hskip]
      rfl
  | qualified scope name =>
      rw [node, Node.noted_branch_of_keep hrole, Node.flatMap_noted_chain]
      simp only [List.flatMap_cons, scope.noted_node hskip, name.noted_node hskip,
        Node.noted_leaf, hskip.accessor]
      rfl

theorem Identifier.itemName_append (w : Identifier) (h : EndsWord rest) :
    itemName (w.text ++ rest) = .found (w.node rest) rest := by
  obtain ⟨x, v, hw, hx⟩ := w.exists_cons
  have hquote : itemNameCaseSensitive (w.text ++ rest) = .absent := by
    refine itemNameCaseSensitive_eq_absent ?_
    rw [hw]
    rintro ⟨⟩
    cases hx
  have hdigit : w.text.head?.any Char.isDigit = false := by
    rw [hw]
    exact isDigit_eq_false_of_isAlpha hx
  have hword : itemNameCaseInsensitive (w.text ++ rest) =
      .found (Node.leaf .itemNameCaseInsensitive w.text rest) rest :=
    word_append (w.isRun h) (by rw [hdigit, w.free]; rfl)
  exact node_of_found (one_of_found ((orElse_of_absent hquote).trans hword))

/-- No blob goes further than a word that no blob character follows. -/
theorem length_takeWhile_isBlobChar_le (w : Text) (h : EndsWord rest)
    (hhyphen : rest.head? ≠ some '-') :
    ((w ++ rest).takeWhile isBlobChar).length ≤ w.length := by
  have hblob : ∀ x ∈ rest.head?, isBlobChar x = false := by
    intro x hx
    rw [isBlobChar, Bool.or_eq_false_iff, beq_eq_false_iff_ne]
    refine ⟨Bool.eq_false_of_not_eq_true fun hhex => ?_, fun hxy => hhyphen (hxy ▸ hx)⟩
    have halnum := isAlphanum_of_isHexDigit hhex
    rw [h x hx] at halnum
    cases halnum
  rw [List.takeWhile_append]
  split
  · rw [takeWhile_eq_nil hblob, List.append_nil]
  · exact (List.takeWhile_prefix _).length_le

theorem Identifier.blobBeyond_append (w : Identifier) (h : EndsWord rest)
    (hhyphen : rest.head? ≠ some '-') : blobBeyond itemName (w.text ++ rest) = .absent := by
  rw [blobBeyond, w.itemName_append h, Reading.bind_found]
  refine mixedBlob_eq_absent ?_
  rw [w.node_spelling]
  exact length_takeWhile_isBlobChar_le w.text h hhyphen

/-- An identifier is no keyword that a run of keywords could begin with. -/
theorem Identifier.leadingWord_append (w : Identifier) (h : EndsWord rest)
    (hpartner : partnerFollows w.text rest = false) :
    leadingWord (w.text ++ rest) = .absent := by
  cases hword : commandWord (w.text ++ rest) with
  | absent => rw [leadingWord, hword, Reading.bind_absent]
  | broken f => exact absurd hword word_ne_broken
  | found n middle =>
      obtain ⟨_, _, rfl, rfl⟩ := word_eq_found.mp hword
      rw [leadingWord, hword, Reading.bind_found, (w.isRun h).takeWhile_append,
        (w.isRun h).dropWhile_append]
      change (if isClauseWord w.text || partnerFollows w.text rest then _ else _) = _
      rw [w.free, hpartner]
      rfl

theorem Reference.isLayout_head? (r : Reference) (rest : Text) :
    ∀ x ∈ (r.text ++ rest).head?, Text.isLayout x = false := by
  cases r with
  | plain name => exact isLayout_head?_word name.ne_nil name.word rest
  | qualified scope name =>
      rw [text, List.append_assoc]
      exact isLayout_head?_word scope.ne_nil scope.word _

theorem Reference.exists_cons (r : Reference) : ∃ x v, r.text = x :: v ∧ x.isAlpha = true := by
  cases r with
  | plain name => exact name.exists_cons
  | qualified scope name =>
      obtain ⟨x, v, hv, hx⟩ := scope.exists_cons
      exact ⟨x, v ++ '.' :: name.text, by rw [text, hv, List.cons_append], hx⟩

theorem endsWord_dot (t : Text) : EndsWord ('.' :: t) := by
  rintro x ⟨⟩
  rfl

theorem Reference.leadingWord_append (r : Reference) (h : ClosesName rest) :
    leadingWord (r.text ++ rest) = .absent := by
  cases r with
  | plain name => exact name.leadingWord_append h.ends (h.unpaired name.text)
  | qualified scope name =>
      rw [text, List.append_assoc]
      exact scope.leadingWord_append (endsWord_dot _)
        (partnerFollows_eq_false (t := '.' :: (name.text ++ rest)) (endsWord_dot _) scope.text)

/-- A reference is read as a name of the category that its place calls for. -/
theorem Reference.qualifiedName_append (r : Reference) (role : Category) (h : ClosesName rest) :
    qualifiedName role (r.text ++ rest) = .found (r.node role rest) rest := by
  have haccessor : accessor rest = .absent := delimiter_eq_absent h.dot
  cases r with
  | plain name =>
      have hname := one_of_found (name.itemName_append h.ends)
      exact node_of_found (seq_of_founds hname
        (optional_of_absent (seq_of_absent (one_of_absent haccessor))))
  | qualified scope name =>
      have hscope := one_of_found (scope.itemName_append (endsWord_dot (name.text ++ rest)))
      have hdot := one_of_found (delimiter_cons '.' .accessor (name.text ++ rest))
      have hname : itemName.required .itemName (name.text ++ rest) = .found (name.node rest) rest :=
        required_of_found .itemName (name.itemName_append h.ends)
      rw [text, List.append_assoc, List.cons_append]
      exact node_of_found (seq_of_founds hscope
        (optional_of_found (seq_of_founds hdot (one_of_found hname))))

theorem Reference.selector_append (r : Reference) (role : Category) (h : ClosesName rest) :
    selector role (r.text ++ rest) = .found (r.node role rest) rest := by
  have hblob : blobBeyond itemName (r.text ++ rest) = .absent := by
    cases r with
    | plain name => exact name.blobBeyond_append h.ends h.hyphen
    | qualified scope name =>
        rw [text, List.append_assoc]
        exact scope.blobBeyond_append (endsWord_dot _) (by simp)
  rw [selector, selectorUnder, orElse_of_absent (wrap_of_absent (wrap_of_absent hblob))]
  exact orElse_of_found (r.qualifiedName_append role h)

end Names

section Items

variable {room : Nat} {s : NameContext} {t rest : Text} {n : Node}

theorem reservedWordSequence_eq_absent (h : leadingWord t = .absent) :
    reservedWordSequence t = .absent :=
  node_of_absent (andThen_of_absent h)

theorem leadingWord_eq_absent (h : EndsWord t) : leadingWord t = .absent := by
  rw [leadingWord, commandWord, word_eq_absent h, Reading.bind_absent]

/-- What begins no run of keywords is read as a plain item, in a list and elsewhere. -/
theorem commandItem_of_leadingWord (h : leadingWord t = .absent) :
    commandItem room s t = plainItem room s.role t := by
  unfold commandItem
  split
  · exact orElse_of_absent (reservedWordSequence_eq_absent h)
  · rw [otherThan, h]

theorem commandItem_of_selector (hword : leadingWord t = .absent) (hbracket : t.head? ≠ some '[')
    (hbrace : t.head? ≠ some '\x7b') (h : selector s.role t = .found n rest) :
    commandItem room s t = .found n rest := by
  have hcollection := collection_eq_absent room hbracket hbrace
  rw [commandItem_of_leadingWord hword, plainItem]
  exact orElse_of_found ((orElse_of_absent hcollection).trans h)

theorem Reference.commandItem_append (r : Reference) (room : Nat) (s : NameContext)
    (h : ClosesName rest) :
    commandItem room s (r.text ++ rest) = .found (r.node s.role rest) rest := by
  obtain ⟨x, v, hv, hx⟩ := r.exists_cons
  refine commandItem_of_selector (r.leadingWord_append h) ?_ ?_ (r.selector_append s.role h)
  all_goals
    rw [hv]
    rintro ⟨⟩
    cases hx

/-- The item that a list mark is. -/
theorem commandItem_listMark {x : Char} (hx : isListMark x = true) (room : Nat)
    (s : NameContext) (t : Text) :
    commandItem room s (x :: t) = .found (Node.leaf .symbol [x] t) t := by
  have hmark : x ≠ '[' ∧ x ≠ '\x7b' ∧ beginsSelector x = false ∧ x ∈ symbols := by
    rcases eq_of_isListMark hx with rfl | rfl | rfl <;> decide
  obtain ⟨hbracket, hbrace, hselector, hsymbol⟩ := hmark
  have hword : leadingWord (x :: t) = .absent :=
    leadingWord_eq_absent (endsWord_punctuation (isPunctuation_of_isListMark hx) t)
  have hcollection : (arrayLiteral room).orElse (mapLiteral room) (x :: t) = .absent :=
    collection_eq_absent room (by simpa using hbracket) (by simpa using hbrace)
  have hnone : selector s.role (x :: t) = .absent :=
    selector_eq_absent s.role fun y hy => Option.some.inj hy ▸ hselector
  rw [commandItem_of_leadingWord hword, plainItem,
    orElse_of_absent ((orElse_of_absent hcollection).trans hnone)]
  exact symbol_cons hsymbol t

/-- The node of a bind marker in front of a rest. -/
def markNode (rest : Text) : Node :=
  Node.branch .selectorItem (Node.chain [Node.leaf .placeholderInject ['?'] rest]) rest

theorem endsWord_mark (t : Text) : EndsWord ('?' :: t) := by
  rintro x ⟨⟩
  rfl

theorem selector_mark (role : Category) (t : Text) :
    selector role ('?' :: t) = .found (markNode t) t := by
  rw [selector_of_itemName_absent role (itemName_eq_absent (endsWord_mark t) (by simp))]
  exact node_of_found (one_of_found (orElse_of_found (delimiter_cons '?' .placeholderInject t)))

theorem commandItem_mark (room : Nat) (s : NameContext) (t : Text) :
    commandItem room s ('?' :: t) = .found (markNode t) t :=
  commandItem_of_selector (leadingWord_eq_absent (endsWord_mark t)) (by simp) (by simp)
    (selector_mark s.role t)

/-- A keyword that leads a command ends the items of the one before, outside lists. -/
theorem commandItem_eq_absent (hlist : s.inList = false) (h : leadingWord t = .found n rest) :
    commandItem room s t = .absent := by
  rw [commandItem, hlist, if_neg Bool.false_ne_true, otherThan, h]

end Items

end QueryTree
