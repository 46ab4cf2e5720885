import QueryTree.Proofs.Keywords.Guarded
import QueryTree.Proofs.Keywords.Surroundings
import QueryTree.Proofs.Marks.Substitution

/-!
# Clause words in a source

In a source that is read, a clause word outside of quotes is one leaf of the tree, and no other
leaf takes up a part of it. Names refuse clause words and numbers have no letters, so that
the leaf is a keyword, unless the word is spelled with hexadecimal letters alone. That is the
case of `ADD` only, and in arrays, maps and comparisons, where selectors are read without a look
at the keywords, `ADD` is read as a blob.
-/

namespace QueryTree

open Grammar

/-- A clause word that no letter, digit or hyphen follows is a whole word. -/
theorem Text.IsRun.of_isClauseWord {w rest : Text} (h : Text.IsRun Text.isWordChar w rest)
    (hclause : isClauseWord w = true) : Text.IsRun Char.isAlphanum w rest := by
  have hletters := List.all_eq_true.mp (all_isAlpha_of_isClauseWord hclause)
  exact ⟨h.1, fun x hx => by simp [Char.isAlphanum, hletters x hx],
    fun x hx => (Bool.or_eq_false_iff.mp (h.2.2 x hx)).1⟩

namespace Node

variable {n : Node} {w rest : Text}

/-- A piece that begins with a letter or a digit is a word. -/
theorem Formed.isWordly (h : n.Formed) (hpiece : n.IsPiece)
    (hhead : ∃ x ∈ (n.spelling ++ n.following).head?, x.isAlphanum = true) :
    n.category.isWordly = true := by
  obtain ⟨x, hx, halnum⟩ := hhead
  have hspells := h.spells
  rcases hpiece with hc | hc | hc | hc
  · rw [hc] at hspells
    obtain ⟨s, hs, _⟩ := hspells
    rw [hs, Text.quoted_append] at hx
    obtain rfl := Option.some.inj hx
    cases halnum
  · rw [hc] at hspells
    obtain ⟨body, _, _, hs⟩ := hspells
    rw [hs] at hx
    obtain rfl := Option.some.inj hx
    cases halnum
  · rw [h.endsWord hc x hx] at halnum
    cases halnum
  · exact hc

/-- What a well-formed word is where a clause word stands. -/
theorem Formed.of_clauseWord (h : n.Formed) (hword : n.category.isWordly = true)
    (hchars : n.category ≠ .chars)
    (hspares : n.category = .hexBlob → SparesWords n.spelling n.following)
    (hcover : n.spelling ++ n.following = w ++ rest)
    (hrun : Text.IsRun Text.isWordChar w rest) (hclause : isClauseWord w = true) :
    n.spelling = w ∧ (n.category = .reservedWord ∨ n.category = .whereKeyword ∨
      n.category = .hexBlob ∧ Text.upper w = Keyword.ADD.spelling) := by
  have hletters := List.all_eq_true.mp (all_isAlpha_of_isClauseWord hclause)
  have hwhole := hrun.of_isClauseWord hclause
  have hsame : Text.IsRun Char.isAlphanum n.spelling n.following → n.spelling = w := by
    intro hn
    rw [← hn.takeWhile_append, hcover, hwhole.takeWhile_append]
  have hspells := h.spells
  generalize hc : n.category = c at hword hchars hspells
  cases c with
  | reservedWord => exact ⟨hsame hspells.1, Or.inl rfl⟩
  | whereKeyword => exact ⟨hsame hspells.1, Or.inr (Or.inl rfl)⟩
  | itemNameCaseInsensitive =>
      obtain ⟨hn, hname, _⟩ := hspells
      rw [hsame hn, hclause] at hname
      cases hname
  | number =>
      obtain ⟨x, v, hv, hdigit⟩ := hspells.exists_cons
      obtain ⟨y, u, rfl, _⟩ := hwhole.exists_cons
      rw [hv] at hcover
      obtain ⟨rfl, _⟩ := List.cons.inj hcover
      rw [isDigit_eq_false_of_isAlpha (hletters x List.mem_cons_self)] at hdigit
      cases hdigit
  | hexBlob =>
      have hhyphen : rest.head? ≠ some '-' := fun hx => absurd (hrun.2.2 '-' hx) (by decide)
      have hn := hspares hc w rest hcover hwhole hhyphen hclause
      refine ⟨hn, Or.inr (Or.inr ⟨rfl, upper_eq_add_of_isHexDigit hclause fun x hx => ?_⟩)⟩
      exact isHexDigit_of_isBlobChar (hspells.1.2.1 x (hn ▸ hx)) (hwhole.2.1 x hx)
  | chars => exact absurd rfl hchars
  | _ => cases hword

end Node

open Node

variable {depth : Nat} {q before w rest : Text} {root n : Node}

/-- The leaves on either side of a leaf of a source cover what is on either side of it. -/
theorem leaves_split_of_parse (h : parse depth q = .ok root) (hn : n ∈ root.leaves)
    (hcover : before ++ (n.spelling ++ n.following) = q) :
    ∃ left right, root.leaves = left ++ n :: right ∧ (left.map spelling).flatten = before ∧
      (right.map spelling).flatten = n.following := by
  obtain ⟨left, right, hleaves⟩ := List.append_of_mem hn
  have htiles := tiles_leaves_of_parse h
  rw [hleaves] at htiles
  obtain ⟨middle, hleft, hmiddle, hright⟩ := htiles.split
  refine ⟨left, right, hleaves, ?_, ?_⟩
  · have hsource := hleft.flatten_append
    rw [← hmiddle, ← hcover] at hsource
    exact List.append_cancel_right hsource
  · rw [← hright.flatten_append, List.append_nil]

theorem pieces_of_parse (h : parse depth q = .ok root) :
    ∀ m ∈ root.tokens, m.Formed ∧ m.IsPiece := by
  have hc : root.category = .statement := Phrase.label_mem_part.mp (derives_of_parse h).labels
  exact forall_mem_tokens (formed_of_parse h) (by rw [hc]; rfl) fun m hm hwhole hout =>
    ⟨hm, hm.isPiece hwhole hout⟩

/-- Where a word begins outside of quotes, a leaf over letters, digits and hyphens begins. -/
theorem exists_word_at (h : parse depth q = .ok root) (hw : WordAt q before w rest)
    (hrun : Text.IsRun Char.isAlphanum w rest) :
    ∃ n ∈ root.leaves, n.Formed ∧ n.category.isWordly = true ∧ n.category ≠ .chars ∧
      n.spelling ++ n.following = w ++ rest := by
  obtain ⟨n, hn, hcover⟩ :=
    exists_piece_at (tiles_tokens_of_parse h) (pieces_of_parse h) hw hrun.2.1
  obtain ⟨hformed, hpiece⟩ := pieces_of_parse h n hn
  have hmem := mem_preorder_of_mem_tokens hn
  have hword : n.category.isWordly = true := by
    obtain ⟨x, v, rfl, hx⟩ := hrun.exists_cons
    exact hformed.isWordly hpiece ⟨x, by rw [hcover]; rfl, hx⟩
  have hchildren : n.children = [] := hformed.children_eq_nil (by
    revert hword
    cases n.category <;> decide)
  have hchars : n.category ≠ .chars := by
    have hroot : root.category ≠ .chars := by
      rw [Phrase.label_mem_part.mp (derives_of_parse h).labels]
      decide
    have hparts : ∀ c : Category, ∀ d ∈ c.partCategories, d ≠ .chars := by
      intro c
      cases c <;> decide
    exact (formed_of_parse h).of_category (P := (· ≠ .chars)) hroot (fun c _ => hparts c) n hmem
  exact ⟨n, List.mem_filter.mpr ⟨hmem, by simp [isLeaf, hchildren]⟩, hformed, hword, hchars, hcover⟩

/-- In a source that is read, every clause word outside of quotes is the text of exactly one
leaf, and the leaves beside it cover what is beside the word. The leaf is a keyword, or the word
is `ADD` and the leaf is a blob inside of an array, a map or a comparison. -/
theorem clause_word_is_one_leaf (h : parse depth q = .ok root) (hw : WordAt q before w rest)
    (hclause : isClauseWord w = true) :
    ∃ left n right, root.leaves = left ++ n :: right ∧
      (left.map spelling).flatten = before ∧ n.spelling = w ∧
      (right.map spelling).flatten = rest ∧
      (n.category = .reservedWord ∨ n.category = .whereKeyword ∨
        n.category = .hexBlob ∧ Text.upper w = Keyword.ADD.spelling ∧
          ∃ m ∈ root.preorder, m.category.isUnguarded ∧ n ∈ m.leaves) := by
  have hrun := hw.run.of_isClauseWord hclause
  obtain ⟨n, hleaf, hformed, hword, hchars, hcover⟩ := exists_word_at h hw hrun
  obtain ⟨hmem, hisLeaf⟩ := List.mem_filter.mp hleaf
  obtain ⟨rfl, hcategory⟩ := hformed.of_clauseWord hword hchars
    (sparesWords_of_parse h n hmem) hcover hw.run hclause
  have hfollowing : n.following = rest := List.append_cancel_left hcover
  obtain ⟨left, right, hleaves, hleft, hright⟩ := leaves_split_of_parse h hleaf
    (by rw [hcover, hw.cover] : before ++ (n.spelling ++ n.following) = q)
  refine ⟨left, n, right, hleaves, hleft, rfl, hfollowing ▸ hright, ?_⟩
  rcases hcategory with hc | hc | ⟨hc, hadd⟩
  · exact Or.inl hc
  · exact Or.inr (Or.inl hc)
  · obtain ⟨m, hm, hunguarded, hnm⟩ :=
      exists_isUnguarded_of_parse h hmem hc (hfollowing ▸ hrun) hclause
    exact Or.inr (Or.inr ⟨hc, hadd, m, hm, hunguarded, List.mem_filter.mpr ⟨hnm, hisLeaf⟩⟩)

/-- A name in capitals between double quotes is no clause word, and neither is one in a
string. -/
theorem clause_word_is_one_leaf_from :
    ∃ root, parse 64 "SELECT 'FROM' from t WHERE \"AND\" = 1".toList = .ok root ∧
      WordAt "SELECT 'FROM' from t WHERE \"AND\" = 1".toList "SELECT 'FROM' ".toList "from".toList
        " t WHERE \"AND\" = 1".toList ∧
      ∃ left n right, root.leaves = left ++ n :: right ∧
        (left.map spelling).flatten = "SELECT 'FROM' ".toList ∧ n.spelling = "from".toList ∧
        (right.map spelling).flatten = " t WHERE \"AND\" = 1".toList ∧
        (n.category = .reservedWord ∨ n.category = .whereKeyword ∨
          n.category = .hexBlob ∧ Text.upper "from".toList = Keyword.ADD.spelling ∧
            ∃ m ∈ root.preorder, m.category.isUnguarded ∧ n ∈ m.leaves) := by
  obtain ⟨root, hroot⟩ := exists_tree_of_isOk 64 "SELECT 'FROM' from t WHERE \"AND\" = 1".toList
    (by decide +kernel)
  have hw : WordAt "SELECT 'FROM' from t WHERE \"AND\" = 1".toList "SELECT 'FROM' ".toList
      "from".toList " t WHERE \"AND\" = 1".toList := by
    decide +kernel
  exact ⟨root, hroot, hw, clause_word_is_one_leaf hroot hw (by decide +kernel)⟩

/-- In a comparison `add` is no keyword. -/
theorem add_in_comparison_is_no_keyword :
    ∃ root, parse 64 "USE t WHERE a = add".toList = .ok root ∧
      WordAt "USE t WHERE a = add".toList "USE t WHERE a = ".toList "add".toList [] ∧
      isClauseWord "add".toList = true ∧
      ¬∃ n ∈ root.leaves, n.spelling = "add".toList ∧
        (n.category = .reservedWord ∨ n.category = .whereKeyword) := by
  obtain ⟨root, hroot⟩ := exists_tree_of_isOk 64 "USE t WHERE a = add".toList (by decide +kernel)
  have hkeywords : (parse 64 "USE t WHERE a = add".toList).map (fun root => root.leaves.any fun n =>
      n.spelling = "add".toList ∧ (n.category = .reservedWord ∨ n.category = .whereKeyword)) =
        .ok false := by
    decide +kernel
  rw [hroot] at hkeywords
  refine ⟨root, hroot, by decide +kernel, by decide +kernel, ?_⟩
  rintro ⟨n, hn, hkeyword⟩
  exact absurd hkeyword (by simpa using List.any_eq_false.mp (Except.ok.inj hkeywords) n hn)

end QueryTree
