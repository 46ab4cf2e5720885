import QueryTree.Proofs.Keywords.Spared

/-!
# Words outside of quotes

A scan of a text from left to right tells what a place of it is inside of: a string, a name
between double quotes, or neither. On the text of tokens, a word that begins inside of neither
begins where a token does.
-/

namespace QueryTree

open Grammar

/-- What a place of a text is inside of. -/
inductive Surroundings where
  | none
  | string
  | name
deriving DecidableEq, Repr

/-- What the place behind a character is inside of. A string and a name end with the quote that
they begin with. -/
def Surroundings.after : Surroundings → Char → Surroundings
  | .none, '\'' => .string
  | .none, '"' => .name
  | .string, '\'' => .none
  | .name, '"' => .none
  | surroundings, _ => surroundings

/-- What the place behind a text is inside of. -/
def Text.surroundings (before : Text) : Surroundings :=
  before.foldl Surroundings.after .none

/-- The characters of words, numbers and blobs. -/
def Text.isWordChar (x : Char) : Bool :=
  x.isAlphanum || x == '-'

/-- Whether a longest run of letters, digits and hyphens stands at a place of a text, outside
of strings and names between double quotes. -/
structure WordAt (t before w rest : Text) : Prop where
  cover : before ++ (w ++ rest) = t
  run : Text.IsRun Text.isWordChar w rest
  start : ∀ x ∈ before.getLast?, Text.isWordChar x = false
  outside : Text.surroundings before = .none

theorem Text.isRun_iff {p : Char → Bool} {w rest : Text} : Text.IsRun p w rest ↔
    w ≠ [] ∧ w.all p = true ∧ rest.head?.any p = false := by
  rw [Text.IsRun, List.all_eq_true]
  cases rest <;> simp

theorem wordAt_iff {t before w rest : Text} : WordAt t before w rest ↔
    before ++ (w ++ rest) = t ∧ (w ≠ [] ∧ w.all Text.isWordChar = true ∧
      rest.head?.any Text.isWordChar = false) ∧
        before.getLast?.any Text.isWordChar = false ∧ Text.surroundings before = .none := by
  have hstart : before.getLast?.any Text.isWordChar = false ↔
      ∀ x ∈ before.getLast?, Text.isWordChar x = false := by
    cases before.getLast? <;> simp
  rw [← Text.isRun_iff, hstart]
  exact ⟨fun h => ⟨h.cover, h.run, h.start, h.outside⟩, fun h => ⟨h.1, h.2.1, h.2.2.1, h.2.2.2⟩⟩

instance (t before w rest : Text) : Decidable (WordAt t before w rest) :=
  decidable_of_iff _ wordAt_iff.symm

/-- The categories of leaves that are made of letters, digits and hyphens. -/
def Category.isWordly : Category → Bool
  | .chars | .number | .hexBlob | .reservedWord | .whereKeyword | .itemNameCaseInsensitive => true
  | _ => false

section Scanning

variable {w u v : Text} {x : Char}

theorem Surroundings.after_of_notMem {place : Surroundings} (h : x ∉ Text.quotes) :
    place.after x = place := by
  have hsingle : x ≠ '\'' := fun hx => h (hx ▸ by decide)
  have hdouble : x ≠ '"' := fun hx => h (hx ▸ by decide)
  unfold after
  split <;> simp_all

theorem Surroundings.foldl_after {place : Surroundings} (h : ∀ x ∈ w, x ∉ Text.quotes) :
    w.foldl after place = place := by
  induction w with
  | nil => rfl
  | cons x w ih =>
      rw [List.foldl_cons, after_of_notMem (h x List.mem_cons_self)]
      exact ih fun y hy => h y (List.mem_cons_of_mem x hy)

theorem Text.notMem_quotes_of_isWordChar (h : Text.isWordChar x = true) : x ∉ Text.quotes := by
  intro hquote
  revert h
  rcases List.mem_pair.mp hquote with rfl | rfl <;> decide

/-- Any character but the single quote leaves the scan inside of a string. -/
theorem Surroundings.after_string (h : x ≠ '\'') : Surroundings.string.after x = .string := by
  unfold after
  split <;> simp_all

theorem surroundings_quoted (s : Text) : Text.surroundings (Text.quoted s) = .none := by
  have hbody : (Text.doubleQuotes s).foldl Surroundings.after .string = .string := by
    induction s with
    | nil => rfl
    | cons x s ih =>
        by_cases hx : x = '\''
        · subst hx
          rw [Text.doubleQuotes_quote_cons]
          exact ih
        · rw [Text.doubleQuotes_cons_of_ne hx, List.foldl_cons, Surroundings.after_string hx]
          exact ih
  have happend := Text.quoted_append s []
  rw [List.append_nil] at happend
  rw [Text.surroundings, happend, List.foldl_cons, List.foldl_append]
  exact congrArg (['\''].foldl Surroundings.after) hbody

/-- Where a string looks closed before its end, a quote comes next: the quote before it was the
first of two. -/
theorem eq_quote_of_surroundings {s : Text} (hcover : Text.doubleQuotes s ++ ['\''] = u ++ x :: v)
    (hout : u.foldl Surroundings.after .string = .none) : x = '\'' := by
  induction s generalizing u with
  | nil =>
      cases u with
      | nil => cases hout
      | cons y u => simp at hcover
  | cons y s ih =>
      by_cases hy : y = '\''
      · subst hy
        rw [Text.doubleQuotes_quote_cons] at hcover
        match u with
        | [] => cases hout
        | [z] => exact (List.cons.inj (List.cons.inj hcover).2).1.symm
        | z :: z' :: u =>
            obtain ⟨rfl, htail⟩ := List.cons.inj hcover
            obtain ⟨rfl, hrest⟩ := List.cons.inj htail
            exact ih hrest hout
      · rw [Text.doubleQuotes_cons_of_ne hy] at hcover
        cases u with
        | nil => cases hout
        | cons z u =>
            obtain ⟨rfl, hrest⟩ := List.cons.inj hcover
            rw [List.foldl_cons, Surroundings.after_string hy] at hout
            exact ih hrest hout

end Scanning

namespace Node

variable {n : Node} {ns : List Node} {t before w rest u v : Text} {x : Char}

/-- Whether a node is a string, a name between double quotes, punctuation or a word. -/
def IsPiece (n : Node) : Prop :=
  n.category = .string ∨ n.category = .itemNameCaseSensitive ∨ n.category.isPunctuation = true ∨
    n.category.isWordly = true

theorem Formed.isPiece (h : n.Formed) (hwhole : n.category = .string ∨ n.children = [])
    (hout : n.category.isInString = false) : n.IsPiece := by
  rcases hwhole with hc | hleaf
  · exact Or.inl hc
  · have hcomposite : n.category.isComposite = false := by
      by_contra hc
      exact h.children_ne_nil (by simpa using hc) hleaf
    have hkinds : ∀ c : Category, c.isComposite = false → c.isInString = false →
        c = .string ∨ c = .itemNameCaseSensitive ∨ c.isPunctuation = true ∨ c.isWordly = true := by
      intro c
      cases c <;> decide
    exact hkinds _ hcomposite hout

theorem Formed.isWordChar (h : n.Formed) (hc : n.category.isWordly = true) :
    ∀ x ∈ n.spelling, Text.isWordChar x = true := by
  have hword : (∀ x ∈ n.spelling, x.isAlphanum = true) →
      ∀ x ∈ n.spelling, Text.isWordChar x = true :=
    fun hall x hx => Bool.or_eq_true_iff.mpr (Or.inl (hall x hx))
  have hspells := h.spells
  generalize n.category = c at hc hspells
  cases c with
  | chars => exact hword hspells.2.1
  | reservedWord => exact hword hspells.1.2.1
  | whereKeyword => exact hword hspells.1.2.1
  | itemNameCaseInsensitive => exact hword hspells.1.2.1
  | number => exact hword fun x hx => by simp [Char.isAlphanum, hspells.2.1 x hx]
  | hexBlob =>
      intro x hx
      have hblob := hspells.1.2.1 x hx
      refine Bool.or_eq_true_iff.mpr ((Bool.or_eq_true_iff.mp hblob).imp_left fun hhex => ?_)
      exact isAlphanum_of_isHexDigit hhex
  | _ => cases hc

/-- The scan leaves all that it is inside of at the end of a piece. -/
theorem Formed.surroundings_spelling (h : n.Formed) (hpiece : n.IsPiece) :
    Text.surroundings n.spelling = .none := by
  have hspells := h.spells
  rcases hpiece with hc | hc | hc | hc
  · rw [hc] at hspells
    obtain ⟨s, hs, _⟩ := hspells
    rw [hs]
    exact surroundings_quoted s
  · rw [hc] at hspells
    obtain ⟨body, _, halnum, hs⟩ := hspells
    have hbody : body.foldl Surroundings.after .name = .name := Surroundings.foldl_after
      fun x hx => Text.notMem_quotes_of_isWordChar (Bool.or_eq_true_iff.mpr (Or.inl (halnum x hx)))
    rw [hs, Text.surroundings, List.foldl_cons, List.foldl_append]
    exact congrArg (['"'].foldl Surroundings.after) hbody
  · exact Surroundings.foldl_after fun x hx => (hspells.punctuation hc x hx).2
  · exact Surroundings.foldl_after fun x hx =>
      Text.notMem_quotes_of_isWordChar (h.isWordChar hc x hx)

/-- No word begins behind the front of a piece, outside of strings and quoted names. -/
theorem Formed.not_begins_within (h : n.Formed) (hpiece : n.IsPiece)
    (hcover : n.spelling = u ++ x :: v) (hne : u ≠ [])
    (hstart : ∀ y ∈ u.getLast?, Text.isWordChar y = false)
    (hout : Text.surroundings u = .none) : x.isAlphanum = false := by
  have hspells := h.spells
  obtain ⟨y, u, rfl⟩ := List.exists_cons_of_ne_nil hne
  have hlast := List.getLast?_eq_some_getLast hne
  rcases hpiece with hc | hc | hc | hc
  · rw [hc] at hspells
    obtain ⟨s, hs, _⟩ := hspells
    have hquoted := Text.quoted_append s []
    rw [List.append_nil, ← hs, hcover] at hquoted
    obtain ⟨rfl, hrest⟩ := List.cons.inj hquoted
    rw [eq_quote_of_surroundings hrest.symm hout]
    decide
  · rw [hc] at hspells
    obtain ⟨body, _, halnum, hs⟩ := hspells
    rw [hcover] at hs
    obtain ⟨rfl, hrest⟩ := List.cons.inj hs
    rcases List.eq_nil_or_concat u with rfl | ⟨u, z, rfl⟩
    · cases hout
    · -- the character in front of the word belongs to the body of the name
      have hbody : u ++ z :: (x :: v).dropLast = body := by
        simpa [List.dropLast_append_of_ne_nil] using congrArg List.dropLast hrest
      have hz := hstart z (by simp [List.getLast?_cons])
      rw [Text.isWordChar, halnum z (by rw [← hbody]; simp)] at hz
      cases hz
  · exact (hspells.punctuation hc x (by rw [hcover]; simp)).1
  · have hy := h.isWordChar hc _ (by
      rw [hcover]
      exact List.mem_append_left _ (List.getLast_mem hne))
    rw [hstart _ hlast] at hy
    cases hy

/-- Where a word begins outside of quotes, a piece begins. -/
theorem exists_piece_at (htiles : Tiles t ns []) (hns : ∀ n ∈ ns, n.Formed ∧ n.IsPiece)
    (h : WordAt t before w rest) (hw : ∀ x ∈ w, x.isAlphanum = true) :
    ∃ n ∈ ns, n.spelling ++ n.following = w ++ rest := by
  induction ns generalizing t before with
  | nil =>
      have hcover := h.cover
      rw [show t = [] from htiles] at hcover
      exact absurd (List.append_eq_nil_iff.mp (List.append_eq_nil_iff.mp hcover).2).1 h.run.1
  | cons n ns ih =>
      obtain ⟨hn, htail⟩ := htiles
      obtain ⟨hformed, hpiece⟩ := hns n List.mem_cons_self
      have hsplit := hn.trans h.cover.symm
      -- the word begins behind the first piece, or at its front or within it
      have hplace : (∃ u, before = n.spelling ++ u ∧ n.following = u ++ (w ++ rest)) ∨
          ∃ x u, n.spelling = before ++ x :: u ∧ w ++ rest = x :: u ++ n.following := by
        rcases List.append_eq_append_iff.mp hsplit with ⟨u, hu, hrest⟩ | ⟨u, hu, hrest⟩
        · exact Or.inl ⟨u, hu, hrest⟩
        · cases u with
          | nil => exact Or.inl ⟨[], by rw [hu, List.append_nil, List.append_nil], hrest.symm⟩
          | cons x u => exact Or.inr ⟨x, u, hu, hrest⟩
      rcases hplace with ⟨u, rfl, hu⟩ | ⟨x, u, hu, hrest⟩
      · have hword : WordAt n.following u w rest := by
          refine ⟨hu.symm, h.run, fun x hx => h.start x ?_, ?_⟩
          · rw [List.getLast?_append, hx]
            rfl
          · have houtside := h.outside
            rwa [Text.surroundings, List.foldl_append, ← Text.surroundings,
              hformed.surroundings_spelling hpiece] at houtside
        obtain ⟨m, hm, hcover⟩ := ih htail (fun m hm => hns m (List.mem_cons_of_mem n hm)) hword
        exact ⟨m, List.mem_cons_of_mem n hm, hcover⟩
      · by_cases hbefore : before = []
        · rw [hbefore, List.nil_append] at hsplit
          exact ⟨n, List.mem_cons_self, hsplit⟩
        · exfalso
          have hx := hformed.not_begins_within hpiece hu hbefore h.start h.outside
          obtain ⟨y, w, rfl⟩ := List.exists_cons_of_ne_nil h.run.1
          obtain ⟨rfl, _⟩ := List.cons.inj hrest
          rw [hw y List.mem_cons_self] at hx
          cases hx

end Node

end QueryTree
