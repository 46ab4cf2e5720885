import QueryTree.Proofs.Template.Item

/-!
# Lists of query templates

The items of a command are read one after the other, and each of them changes what the next
name refers to. Through a list in parentheses the context goes back and forth between two
states, before an entry and after it, however many entries there are.
-/

namespace QueryTree

open Recognizer Grammar

/-- An entry of a list with the whitespace on its sides. -/
structure Listed (α : Type) where
  before : Gap
  entry : α
  after : Gap

/-- A list in parentheses of at least one entry. -/
structure Parenthesized (α : Type) where
  first : Listed α
  more : List (Listed α)

/-- A further entry of a row, with the whitespace on the sides of the comma before it. -/
structure Further (α : Type) where
  before : Gap
  after : Gap
  entry : α

section Text

variable {α : Type} (spell : α → Text)

def Further.text (e : Further α) : Text :=
  e.before.text ++ ',' :: (e.after.text ++ spell e.entry)

def Listed.text (e : Listed α) : Text :=
  e.before.text ++ (spell e.entry ++ e.after.text)

/-- How a list is written, with commas between its entries. -/
def Parenthesized.text (l : Parenthesized α) : Text :=
  '(' :: (l.first.text spell ++ ((l.more.flatMap fun e => ',' :: e.text spell) ++ [')']))

def Parenthesized.entries (l : Parenthesized α) : List α :=
  l.first.entry :: l.more.map Listed.entry

end Text

/-- Whether the items of a command are read from one context and text to another, and what
they note. -/
def Items (keep : Category → Bool) (room : Nat) (s : NameContext) (t : Text)
    (labels : List Label) (s' : NameContext) (rest : Text) : Prop :=
  ∃ ns, Rounds (fun context => Grammar.spaced (commandItem room context)) NameContext.after
    s t ns s' rest ∧ ns.flatMap (Node.noted keep) = labels

section Items

variable {keep : Category → Bool} {room : Nat} {s s' s'' : NameContext}
variable {t middle rest : Text} {n : Node} {labels labels' : List Label}

theorem Items.trans (h : Items keep room s t labels s' middle)
    (h' : Items keep room s' middle labels' s'' rest) :
    Items keep room s t (labels ++ labels') s'' rest := by
  obtain ⟨ns, hns, rfl⟩ := h
  obtain ⟨ms, hms, rfl⟩ := h'
  exact ⟨ns ++ ms, hns.trans hms, List.flatMap_append⟩

/-- One item behind whitespace. -/
theorem Items.item (hskip : Node.SkipsWords keep) (g : Gap)
    (hhead : ∀ x ∈ t.head?, Text.isLayout x = false) (h : commandItem room s t = .found n rest) :
    Items keep room s (g.text ++ t) (n.noted keep) (s.after n) rest := by
  have hspaced := g.spaced_append_found hhead h
  have hlength : rest.length < (g.text ++ t).length := by
    rw [List.length_append]
    exact ((commandItem_finds room s t n rest h).length_lt Phrase.nil_notMem_item).trans_le
      (Nat.le_add_left _ _)
  have hafter : (gapNodes (g.text ++ t) ++ [n]).foldl NameContext.after s = s.after n := by
    rw [List.foldl_append, foldl_after_gapNodes]
    rfl
  refine ⟨gapNodes (g.text ++ t) ++ [n], hafter ▸ .single hspaced hlength, ?_⟩
  rw [List.flatMap_append, Node.flatMap_noted_gapNodes hskip]
  exact List.flatMap_singleton ..

theorem Items.listMark (hskip : Node.SkipsWords keep) (g : Gap) {x : Char}
    (hx : isListMark x = true) (h : s.afterSymbol [x] = s') (t : Text) :
    Items keep room s (g.text ++ x :: t) [] s' t := by
  have hitem := Items.item hskip g
    (isLayout_head?_punctuation (isPunctuation_of_isListMark hx) t)
    (commandItem_listMark hx room s t)
  rw [Node.noted_leaf, hskip.symbol] at hitem
  exact h ▸ hitem

end Items

section Lists

variable {α : Type} {keep : Category → Bool} {room : Nat} {spell : α → Text}
variable {note : α → List Label} {s₀ s s' s₁ : NameContext}

/-- Whether an entry that is written by `spell` is read as one item, which notes what `note`
says and leads from the context `s` to the context `s'`. -/
structure ReadsEntry (keep : Category → Bool) (room : Nat) (spell : α → Text)
    (note : α → List Label) (s s' : NameContext) : Prop where
  head : ∀ a rest, ∀ x ∈ (spell a ++ rest).head?, Text.isLayout x = false
  item : ∀ a rest, ClosesName rest → ∃ n, commandItem room s (spell a ++ rest) = .found n rest ∧
    n.noted keep = note a ∧ s.after n = s'

theorem ReadsEntry.items (h : ReadsEntry keep room spell note s s')
    (hskip : Node.SkipsWords keep) (e : Listed α) {x : Char} (hx : isListMark x = true)
    (t : Text) :
    Items keep room s (e.text spell ++ x :: t) (note e.entry) s' (e.after.text ++ x :: t) := by
  obtain ⟨n, hitem, hnoted, hafter⟩ :=
    h.item e.entry _ (e.after.closesName (isPunctuation_of_isListMark hx) t)
  rw [Listed.text, List.append_assoc, List.append_assoc, ← hnoted, ← hafter]
  exact Items.item hskip e.before (h.head e.entry _) hitem

/-- What follows an entry: a comma or the closing parenthesis. -/
theorem exists_listMark (spell : α → Text) (more : List (Listed α)) (t : Text) :
    ∃ x u, (more.flatMap fun e => ',' :: e.text spell) ++ ')' :: t = x :: u ∧
      isListMark x = true := by
  cases more with
  | nil => exact ⟨')', t, rfl, rfl⟩
  | cons e more => exact ⟨',', _, rfl, rfl⟩

/-- After an entry a list goes on with further entries to its end. -/
theorem ReadsEntry.items_more (h : ReadsEntry keep room spell note s s')
    (hskip : Node.SkipsWords keep)
    (hcomma : s'.afterSymbol [','] = s) (hclose : s'.afterSymbol [')'] = s₁)
    (more : List (Listed α)) (g : Gap) (t : Text) :
    Items keep room s' (g.text ++ ((more.flatMap fun e => ',' :: e.text spell) ++ ')' :: t))
      (more.flatMap fun e => note e.entry) s₁ t := by
  induction more generalizing g with
  | nil => exact Items.listMark hskip g rfl hclose t
  | cons e more ih =>
      obtain ⟨x, u, hu, hx⟩ := exists_listMark spell more t
      have hentry := h.items hskip e hx u
      rw [← hu] at hentry
      rw [List.flatMap_cons, List.flatMap_cons, List.cons_append, List.cons_append,
        List.append_assoc]
      exact (Items.listMark hskip g rfl hcomma _).trans (hentry.trans (ih e.after))

/-- A list is read from its opening to its closing parenthesis. -/
theorem ReadsEntry.items_list (h : ReadsEntry keep room spell note s s')
    (hskip : Node.SkipsWords keep)
    (hopen : s₀.afterSymbol ['('] = s) (hcomma : s'.afterSymbol [','] = s)
    (hclose : s'.afterSymbol [')'] = s₁) (l : Parenthesized α) (g : Gap) (t : Text) :
    Items keep room s₀ (g.text ++ (l.text spell ++ t)) (l.entries.flatMap note) s₁ t := by
  obtain ⟨x, u, hu, hx⟩ := exists_listMark spell l.more t
  have hfirst := h.items hskip l.first hx u
  rw [← hu] at hfirst
  have hmore := h.items_more hskip hcomma hclose l.more l.first.after t
  have hlabels : l.entries.flatMap note =
      note l.first.entry ++ l.more.flatMap fun e => note e.entry := by
    rw [Parenthesized.entries, List.flatMap_cons, List.flatMap_map]
  have htext : l.text spell ++ t = '(' :: (l.first.text spell ++
      ((l.more.flatMap fun e => ',' :: e.text spell) ++ ')' :: t)) := by
    simp [Parenthesized.text]
  rw [hlabels, htext]
  exact (Items.listMark hskip g rfl hopen _).trans (hfirst.trans hmore)

/-- Entries with commas between them are read to the end of the last. -/
theorem ReadsEntry.items_row (h : ReadsEntry keep room spell note s s')
    (hskip : Node.SkipsWords keep) (hcomma : s'.afterSymbol [','] = s) (a : α)
    (more : List (Further α)) (g : Gap) {t : Text} (ht : ClosesName t) :
    Items keep room s (g.text ++ (spell a ++ (more.flatMap (Further.text spell) ++ t)))
      (note a ++ more.flatMap fun e => note e.entry) s' t := by
  induction more generalizing a g with
  | nil =>
      obtain ⟨n, hitem, hnoted, hafter⟩ := h.item a t ht
      rw [List.flatMap_nil, List.flatMap_nil, List.append_nil, ← hnoted, ← hafter]
      exact Items.item hskip g (h.head a t) hitem
  | cons e more ih =>
      have hcloses := e.before.closesName (x := ',') rfl
        (e.after.text ++ (spell e.entry ++ (more.flatMap (Further.text spell) ++ t)))
      obtain ⟨n, hitem, hnoted, hafter⟩ := h.item a _ hcloses
      have hfirst := Items.item hskip g (h.head a _) hitem
      rw [hnoted, hafter] at hfirst
      have htext : (e :: more).flatMap (Further.text spell) ++ t = e.before.text ++
          ',' :: (e.after.text ++ (spell e.entry ++ (more.flatMap (Further.text spell) ++ t))) := by
        simp [Further.text]
      rw [htext, List.flatMap_cons]
      exact hfirst.trans ((Items.listMark hskip e.before rfl hcomma _).trans (ih e.entry e.after))

end Lists

end QueryTree
