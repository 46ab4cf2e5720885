import QueryTree.Proofs.Derivation.Statement

/-!
# Reading by the text ahead

What a production does is often settled by the first character ahead, or by the first
run of characters. These are the facts by which the reading of a given text is followed
from its front to its end.
-/

namespace QueryTree.Grammar

open Recognizer

variable {c : Category} {p : Char → Bool} {accept : Text → Bool} {t w rest : Text}

section Terminals

theorem single_cons {x : Char} (hx : p x = true) (t : Text) :
    single c p (x :: t) = .found (Node.leaf c [x] t) t := by
  rw [single, if_pos hx]

theorem single_eq_absent (h : ∀ x ∈ t.head?, p x = false) : single c p t = .absent := by
  cases t with
  | nil => rfl
  | cons x t => rw [single, h x rfl, if_neg Bool.false_ne_true]

theorem delimiter_cons (x : Char) (c : Category) (t : Text) :
    delimiter x c (x :: t) = .found (Node.leaf c [x] t) t :=
  single_cons (beq_self_eq_true x) t

theorem delimiter_eq_absent {x : Char} (h : t.head? ≠ some x) : delimiter x c t = .absent :=
  single_eq_absent fun y hy => by
    rw [beq_eq_false_iff_ne]
    rintro rfl
    exact h hy

theorem takeWhile_eq_nil (h : ∀ x ∈ t.head?, p x = false) : t.takeWhile p = [] := by
  cases t with
  | nil => rfl
  | cons x t => rw [List.takeWhile_cons, h x rfl, if_neg Bool.false_ne_true]

theorem run_eq_absent (h : ∀ x ∈ t.head?, p x = false) : run c p t = .absent := by
  rw [run, takeWhile_eq_nil h]

theorem run_append (h : Text.IsRun p w rest) :
    run c p (w ++ rest) = .found (Node.leaf c w rest) rest :=
  run_eq_found.mpr (by
    rw [h.takeWhile_append, h.dropWhile_append]
    exact ⟨h.1, rfl, rfl⟩)

theorem word_append (h : Text.IsRun Char.isAlphanum w rest) (ha : accept w = true) :
    word c accept (w ++ rest) = .found (Node.leaf c w rest) rest :=
  word_eq_found.mpr (by
    rw [h.takeWhile_append, h.dropWhile_append]
    exact ⟨h.1, ha, rfl, rfl⟩)

theorem word_eq_absent_of_refused (h : Text.IsRun Char.isAlphanum w rest)
    (ha : accept w = false) : word c accept (w ++ rest) = .absent := by
  rw [word_eq, h.takeWhile_append, ha, Bool.and_false, if_neg Bool.false_ne_true]

theorem word_eq_absent (h : ∀ x ∈ t.head?, x.isAlphanum = false) :
    word c accept t = .absent := by
  simp only [word_eq, takeWhile_eq_nil h, List.isEmpty_nil, Bool.not_true, Bool.false_and,
    Bool.false_eq_true, if_false]

variable {words : List Text}

theorem oneOf_append (h : Text.IsRun Char.isAlphanum w rest)
    (hw : (words.any fun known => Text.sameWord known w) = true) :
    oneOf words c (w ++ rest) = .found (Node.leaf c w rest) rest :=
  word_append h hw

theorem oneOf_eq_absent (h : ∀ x ∈ t.head?, x.isAlphanum = false) :
    oneOf words c t = .absent :=
  word_eq_absent h

end Terminals

section Combinations

variable {r s : Recognizer Node} {u v : Recognizer (List Node)}

theorem orElse_of_absent {α : Type} {r s : Recognizer α} (h : r t = .absent) :
    r.orElse s t = s t := by
  rw [Recognizer.orElse, h]

theorem orElse_of_found {α : Type} {r s : Recognizer α} {a : α} (h : r t = .found a rest) :
    r.orElse s t = .found a rest := by
  rw [Recognizer.orElse, h]

theorem orElse_of_broken {α : Type} {r s : Recognizer α} {f : Fault} (h : r t = .broken f) :
    r.orElse s t = .broken f := by
  rw [Recognizer.orElse, h]

theorem required_of_found {α : Type} {r : Recognizer α} {a : α} (c : Category)
    (h : r t = .found a rest) : r.required c t = .found a rest := by
  rw [required, orFault, orElse_of_found h]

theorem under_of_found {α : Type} {r : Recognizer α} {a : α} (demand : Demand) (c : Category)
    (h : r t = .found a rest) : r.under demand c t = .found a rest := by
  cases demand with
  | optional => exact h
  | mandatory => exact required_of_found c h

theorem one_of_absent (h : r t = .absent) : r.one t = .absent := by
  rw [one, h, Reading.map_absent]

theorem one_of_found {n : Node} (h : r t = .found n rest) : r.one t = .found [n] rest := by
  rw [one, h, Reading.map_found]

theorem andThen_of_absent {parts : Node → Recognizer (List Node)} (h : r t = .absent) :
    r.andThen parts t = .absent := by
  rw [andThen, h, Reading.bind_absent]

theorem andThen_of_founds {parts : Node → Recognizer (List Node)} {n : Node} {ns : List Node}
    {middle : Text} (h : r t = .found n middle) (hparts : parts n middle = .found ns rest) :
    r.andThen parts t = .found (n :: ns) rest := by
  rw [andThen, h, Reading.bind_found, hparts, Reading.map_found]

theorem seq_of_absent (h : u t = .absent) : u.seq v t = .absent := by
  rw [seq, h, Reading.bind_absent]

theorem seq_of_found {ns : List Node} (h : u t = .found ns rest) :
    u.seq v t = (v rest).map fun ms => ns ++ ms := by
  rw [seq, h, Reading.bind_found]

theorem seq_of_founds {ns ms : List Node} {middle : Text} (hu : u t = .found ns middle)
    (hv : v middle = .found ms rest) : u.seq v t = .found (ns ++ ms) rest := by
  rw [seq_of_found hu, hv, Reading.map_found]

theorem optional_of_absent (h : u t = .absent) : Recognizer.optional u t = .found [] t :=
  orElse_of_absent h

theorem optional_of_found {ns : List Node} (h : u t = .found ns rest) :
    Recognizer.optional u t = .found ns rest :=
  orElse_of_found h

theorem node_of_absent (h : u t = .absent) : node c u t = .absent := by
  rw [node, h, Reading.bind_absent]

theorem node_of_found {ns : List Node} (h : u t = .found ns rest) :
    node c u t = .found (Node.branch c (Node.chain ns) rest) rest := by
  rw [node, h, Reading.bind_found]

theorem wrap_of_absent (h : r t = .absent) : wrap c r t = .absent :=
  node_of_absent (one_of_absent h)

theorem refused_of_absent {α : Type} (h : r t = .absent) :
    (refused r : Recognizer α) t = .absent := by
  rw [refused, h, Reading.bind_absent]

theorem refused_of_found {α : Type} {n : Node} (h : r t = .found n rest) :
    (refused r : Recognizer α) t = .broken (.tooDeep t) := by
  rw [refused, h, Reading.bind_found]

end Combinations

section Spacing

/-- The whitespace in front of a text, as a part of a production. -/
def gapNodes (t : Text) : List Node :=
  match t.takeWhile Text.isLayout with
  | [] => []
  | gap => [Node.leaf .whitespace gap (t.dropWhile Text.isLayout)]

theorem optional_whitespace (t : Text) :
    Recognizer.optional (one whitespace) t = .found (gapNodes t) (t.dropWhile Text.isLayout) := by
  unfold gapNodes
  cases hgap : t.takeWhile Text.isLayout with
  | nil =>
      have hdrop : t.dropWhile Text.isLayout = t := by
        simpa [hgap] using List.takeWhile_append_dropWhile (p := Text.isLayout) (l := t)
      have hspace : whitespace t = .absent := by rw [whitespace, run, hgap]
      rw [optional_of_absent (one_of_absent hspace), hdrop]
  | cons x gap =>
      have hspace : whitespace t =
          .found (Node.leaf .whitespace (x :: gap) (t.dropWhile Text.isLayout))
            (t.dropWhile Text.isLayout) := by
        rw [whitespace, run, hgap]
      exact optional_of_found (one_of_found hspace)

theorem category_of_mem_gapNodes {m : Node} (h : m ∈ gapNodes t) : m.category = .whitespace := by
  unfold gapNodes at h
  split at h
  next => cases h
  next => rw [List.mem_singleton.mp h, Node.leaf]

/-- For what names refer to whitespace makes no difference. -/
theorem foldl_after_gapNodes (context : NameContext) (t : Text) :
    (gapNodes t).foldl NameContext.after context = context := by
  unfold gapNodes
  split <;> rfl

/-- A spaced production is read behind the whitespace. -/
theorem spaced_eq (r : Recognizer Node) (t : Text) :
    Grammar.spaced r t = (r (t.dropWhile Text.isLayout)).map fun n => gapNodes t ++ [n] := by
  rw [Grammar.spaced, seq_of_found (optional_whitespace t)]
  unfold one
  cases r (t.dropWhile Text.isLayout) <;> rfl

end Spacing

section Selectors

/-- Whether a character may begin a name, a placeholder or a literal. -/
def beginsSelector (x : Char) : Bool :=
  x.isAlphanum || x == '"' || x == '?' || x == '\''

theorem hexBlob_eq_absent (h : ∀ x ∈ t.head?, Text.isHexDigit x = false) :
    hexBlob t = .absent := by
  unfold hexBlob
  cases t with
  | nil => rfl
  | cons x t =>
      rw [List.head?_cons, Option.any_some, h x rfl, if_neg Bool.false_ne_true]

theorem isAlphanum_of_isHexDigit {x : Char} (h : Text.isHexDigit x = true) :
    x.isAlphanum = true := by
  simp only [Text.isHexDigit, Bool.or_eq_true, Bool.and_eq_true, decide_eq_true_eq] at h
  delta Char.isAlphanum Char.isAlpha Char.isUpper Char.isLower
  simp only [Bool.or_eq_true, Bool.and_eq_true, decide_eq_true_eq]
  rcases h with (h | ⟨hlow, hhigh⟩) | ⟨hlow, hhigh⟩
  · exact Or.inr h
  · exact Or.inl (Or.inr ⟨hlow, Char.le_trans hhigh (by decide : 'f' ≤ 'z')⟩)
  · exact Or.inl (Or.inl ⟨hlow, Char.le_trans hhigh (by decide : 'F' ≤ 'Z')⟩)

theorem itemName_eq_absent (h : ∀ x ∈ t.head?, x.isAlphanum = false)
    (hquote : t.head? ≠ some '"') : itemName t = .absent :=
  wrap_of_absent ((orElse_of_absent (itemNameCaseSensitive_eq_absent hquote)).trans
    (word_eq_absent h))

theorem blobBeyond_of_absent {r : Recognizer Node} (h : r t = .absent) :
    blobBeyond r t = .absent := by
  rw [blobBeyond, h, Reading.bind_absent]

/-- A run of blob characters that is no longer than a length is no longer blob. -/
theorem mixedBlob_eq_absent {length : Nat} (h : (t.takeWhile isBlobChar).length ≤ length) :
    mixedBlob length t = .absent := by
  unfold mixedBlob hexBlob run
  split
  · split
    · rfl
    · rw [Reading.bind_found, if_neg]
      simp [Node.leaf, Nat.not_lt.mpr h]
  · rfl

theorem literal_eq_absent (h : ∀ x ∈ t.head?, Text.isHexDigit x = false)
    (hquote : t.head? ≠ some '\'') : literal t = .absent := by
  have hnumber : number t = .absent := run_eq_absent fun x hx => by
    have := h x hx
    simp only [Text.isHexDigit, Bool.or_eq_false_iff] at this
    exact this.1.1
  have hnumberBlob : blobBeyond number t = .absent := blobBeyond_of_absent hnumber
  refine wrap_of_absent ?_
  rw [under_optional, orElse_of_absent, hexBlob_eq_absent h]
  rw [orElse_of_absent, string_eq_absent hquote]
  rw [orElse_of_absent hnumberBlob, hnumber]

/-- A string is a literal. -/
theorem literal_quoted (s : Text) (h : t.head? ≠ some '\'') :
    literal (Text.quoted s ++ t) =
      .found (Node.branch .literal (Node.chain [quotation s t]) t) t := by
  have hnumber : number (Text.quoted s ++ t) = .absent := rfl
  have hblob : blobBeyond number (Text.quoted s ++ t) = .absent := rfl
  refine node_of_found (one_of_found (orElse_of_found ?_))
  rw [orElse_of_absent ((orElse_of_absent hblob).trans hnumber), string_quoted s h]

/-- What is no name is a bind marker or a literal. -/
theorem selector_of_itemName_absent (role : Category) (h : itemName t = .absent) :
    selector role t = wrap .selectorItem (placeholder.orElse literal) t := by
  have hblob : wrap .selectorItem (wrap .literal (blobBeyond itemName)) t = .absent :=
    wrap_of_absent (wrap_of_absent (blobBeyond_of_absent h))
  have hqualified : qualifiedName role t = .absent :=
    node_of_absent (seq_of_absent (one_of_absent h))
  rw [selector, selectorUnder, under_optional, orElse_of_absent hblob, orElse_of_absent hqualified]

theorem selector_eq_absent (role : Category) (h : ∀ x ∈ t.head?, beginsSelector x = false) :
    selector role t = .absent := by
  have hhead : ∀ x ∈ t.head?, x.isAlphanum = false ∧ x ≠ '"' ∧ x ≠ '?' ∧ x ≠ '\'' := by
    intro x hx
    simpa [beginsSelector, and_assoc] using h x hx
  have hne : ∀ y, (∀ x ∈ t.head?, x ≠ y) → t.head? ≠ some y := fun y hy ht => hy y ht rfl
  have hhex : ∀ x ∈ t.head?, Text.isHexDigit x = false := by
    intro x hx
    by_contra hx'
    have := isAlphanum_of_isHexDigit (by simpa using hx')
    rw [(hhead x hx).1] at this
    cases this
  have hname : itemName t = .absent :=
    itemName_eq_absent (fun x hx => (hhead x hx).1) (hne _ fun x hx => (hhead x hx).2.1)
  have hmark : placeholder t = .absent :=
    delimiter_eq_absent (hne _ fun x hx => (hhead x hx).2.2.1)
  have hliteral : literal t = .absent :=
    literal_eq_absent hhex (hne _ fun x hx => (hhead x hx).2.2.2)
  rw [selector_of_itemName_absent role hname]
  exact wrap_of_absent ((orElse_of_absent hmark).trans hliteral)

end Selectors

section Collections

theorem arrayLiteral_eq_absent (room : Nat) (h : t.head? ≠ some '[') :
    arrayLiteral room t = .absent := by
  have hopen : delimiter '[' .arrayStart t = .absent := delimiter_eq_absent h
  cases room with
  | zero => exact refused_of_absent hopen
  | succ room => exact node_of_absent (seq_of_absent (one_of_absent hopen))

theorem mapLiteral_eq_absent (room : Nat) (h : t.head? ≠ some '\x7b') :
    mapLiteral room t = .absent := by
  have hopen : delimiter '\x7b' .mapStart t = .absent := delimiter_eq_absent h
  cases room with
  | zero => exact refused_of_absent hopen
  | succ room => exact node_of_absent (seq_of_absent (one_of_absent hopen))

theorem collection_eq_absent (room : Nat) (hbracket : t.head? ≠ some '[')
    (hbrace : t.head? ≠ some '\x7b') :
    (arrayLiteral room).orElse (mapLiteral room) t = .absent :=
  (orElse_of_absent (arrayLiteral_eq_absent room hbracket)).trans
    (mapLiteral_eq_absent room hbrace)

theorem symbol_cons {x : Char} (hx : x ∈ symbols) (t : Text) :
    symbol (x :: t) = .found (Node.leaf .symbol [x] t) t :=
  single_cons (List.contains_iff_mem.mpr hx) t

/-- Nothing is no item. -/
theorem commandItem_nil (room : Nat) (context : NameContext) :
    commandItem room context [] = .absent := by
  have hplain : ∀ role, plainItem room role [] = .absent := by
    cases room <;> exact fun _ => rfl
  unfold commandItem
  split
  · exact hplain _
  · exact hplain _

end Collections

end QueryTree.Grammar
