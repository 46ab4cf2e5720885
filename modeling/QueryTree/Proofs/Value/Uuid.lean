import QueryTree.Proofs.Faults.Demand
import QueryTree.Proofs.Keywords.HexLetters

/-!
# UUIDs

A UUID is written as five groups of hexadecimal digits with hyphens between them. Where it
has both a digit and a letter, it is read as one blob, for it is longer than the number or
the name at its front. The test for digits and letters keeps dates and names from being
blobs, but it also fails for a UUID of digits alone or of letters alone, of which only the
first group is read.
-/

namespace QueryTree

open Recognizer Grammar

/-- Whether a text is a UUID: hexadecimal digits in groups of 8, 4, 4, 4 and 12, joined by
hyphens. -/
def Text.IsUuid (u : Text) : Prop :=
  ∃ groups : List Text, groups.map List.length = [8, 4, 4, 4, 12] ∧
    (∀ g ∈ groups, ∀ c ∈ g, isHexDigit c = true) ∧ u = List.intercalate ['-'] groups

/-- Whether a node is a selector that is nothing but a literal, which is nothing but a blob
of the given spelling in front of a rest. -/
def Node.IsBlobItem (n : Node) (u rest : Text) : Prop :=
  n.category = .selectorItem ∧ ∃ literal blob, n.children = [literal] ∧
    literal.category = .literal ∧ literal.children = [blob] ∧ blob.category = .hexBlob ∧
      blob.spelling = u ∧ blob.following = rest

/-- The node that a blob is read as where a selector is expected. -/
def blobItem (u rest : Text) : Node :=
  Node.branch .selectorItem (Node.chain [Node.branch .literal
    (Node.chain [Node.leaf .hexBlob u rest]) rest]) rest

theorem isBlobItem_blobItem (u rest : Text) : (blobItem u rest).IsBlobItem u rest :=
  ⟨rfl, _, _, rfl, rfl, rfl, rfl, rfl, rfl⟩

section Shape

theorem Text.IsUuid.of_all {u : Text} (groups : List Text)
    (hlengths : groups.map List.length = [8, 4, 4, 4, 12])
    (hhex : groups.all (fun g => g.all isHexDigit) = true)
    (hu : u = List.intercalate ['-'] groups) : u.IsUuid :=
  ⟨groups, hlengths, fun g hg => List.all_eq_true.mp (List.all_eq_true.mp hhex g hg), hu⟩

/-- A UUID is its first group, a hyphen, and more of the characters of a blob. -/
theorem Text.IsUuid.exists_group {u : Text} (h : u.IsUuid) : ∃ g tail : Text,
    u = g ++ '-' :: tail ∧ g.length = 8 ∧ (∀ c ∈ g, isHexDigit c = true) ∧
      ∀ c ∈ u, isBlobChar c = true := by
  obtain ⟨groups, hlengths, hhex, rfl⟩ := h
  obtain ⟨g₁, groups, rfl, h₁, hlengths⟩ := List.map_eq_cons_iff.mp hlengths
  obtain ⟨g₂, groups, rfl, h₂, hlengths⟩ := List.map_eq_cons_iff.mp hlengths
  obtain ⟨g₃, groups, rfl, h₃, hlengths⟩ := List.map_eq_cons_iff.mp hlengths
  obtain ⟨g₄, groups, rfl, h₄, hlengths⟩ := List.map_eq_cons_iff.mp hlengths
  obtain ⟨g₅, groups, rfl, h₅, hlengths⟩ := List.map_eq_cons_iff.mp hlengths
  obtain rfl := List.map_eq_nil_iff.mp hlengths
  refine ⟨g₁, g₂ ++ '-' :: (g₃ ++ '-' :: (g₄ ++ '-' :: g₅)), by simp [List.intercalate], h₁,
    hhex g₁ List.mem_cons_self, fun c hc => ?_⟩
  have hgroup : ∀ g ∈ [g₁, g₂, g₃, g₄, g₅], c ∈ g → isBlobChar c = true := by
    intro g hg hcg
    rw [isBlobChar, hhex g hg c hcg, Bool.true_or]
  simp only [List.intercalate, List.intersperse, List.flatten_cons, List.flatten_nil,
    List.mem_append, List.mem_singleton, List.not_mem_nil, or_false] at hc
  rcases hc with hc | rfl | hc | rfl | hc | rfl | hc | rfl | hc
  all_goals first | rfl | exact hgroup _ (by simp) hc

end Shape

section Reading

variable {g t u rest : Text} {n : Node} {after : Text}

theorem hexBlob_append (h : Text.IsRun isBlobChar u rest)
    (hhead : u.head?.any Text.isHexDigit = true) :
    hexBlob (u ++ rest) = .found (Node.leaf .hexBlob u rest) rest := by
  have hfirst : (u ++ rest).head?.any Text.isHexDigit = true := by
    obtain ⟨c, v, rfl⟩ := List.exists_cons_of_ne_nil h.1
    exact hhead
  rw [hexBlob, if_pos hfirst, run_append h]

/-- A blob is preferred to something shorter if it has both digits and letters. -/
theorem blobBeyond_append {r : Recognizer Node} (h : Text.IsRun isBlobChar u rest)
    (hhead : u.head?.any Text.isHexDigit = true) (hr : r (u ++ rest) = .found n after)
    (hlonger : n.spelling.length < u.length) :
    blobBeyond r (u ++ rest) =
      if isMixed u then .found (Node.leaf .hexBlob u rest) rest else .absent := by
  rw [blobBeyond, hr, Reading.bind_found, mixedBlob, hexBlob_append h hhead, Reading.bind_found]
  change (if n.spelling.length < u.length && isMixed u then _ else _) = _
  rw [decide_eq_true hlonger, Bool.true_and]

theorem length_takeWhile_append_le {p : Char → Bool} {x : Char} (hx : p x = false) (g t : Text) :
    ((g ++ x :: t).takeWhile p).length ≤ g.length := by
  rw [List.takeWhile_append]
  split
  · rw [List.takeWhile_cons_of_neg (by simp [hx]), List.append_nil]
  · exact (List.takeWhile_prefix p).length_le

/-- The first group of a blob: eight hexadecimal digits, then a hyphen. -/
structure BeginsBlob (g u rest : Text) : Prop where
  cover : ∃ t, u = g ++ '-' :: t
  length : g.length = 8
  hex : ∀ c ∈ g, Text.isHexDigit c = true
  run : Text.IsRun isBlobChar u rest

namespace BeginsBlob

theorem exists_cons (h : BeginsBlob g u rest) : ∃ x v, u = x :: v ∧ x ∈ g ∧ g.head? = some x := by
  obtain ⟨t, rfl⟩ := h.cover
  obtain ⟨x, v, rfl⟩ := List.exists_cons_of_length_pos (by rw [h.length]; decide)
  exact ⟨x, v ++ '-' :: t, rfl, List.mem_cons_self, rfl⟩

theorem isRun (h : BeginsBlob g u rest) : ∃ t, u = g ++ t ∧ t.head? = some '-' ∧
    Text.IsRun Char.isAlphanum g (t ++ rest) := by
  obtain ⟨t, rfl⟩ := h.cover
  refine ⟨'-' :: t, rfl, rfl, ?_, fun c hc => isAlphanum_of_isHexDigit (h.hex c hc), ?_⟩
  · rintro rfl
    cases h.length
  · rintro _ ⟨⟩
    rfl

theorem head?_ne (h : BeginsBlob g u rest) {y : Char} (hy : y.isAlphanum = false) :
    (u ++ rest).head? ≠ some y := by
  obtain ⟨x, v, rfl, hx, _⟩ := h.exists_cons
  intro hxy
  obtain rfl := Option.some.inj hxy
  rw [isAlphanum_of_isHexDigit (h.hex x hx)] at hy
  cases hy

/-- Whatever stops at the hyphen is shorter than the blob. -/
theorem blobBeyond (h : BeginsBlob g u rest) {r : Recognizer Node}
    (hr : r (u ++ rest) = .found n after) (hn : n.spelling.length ≤ g.length) :
    Grammar.blobBeyond r (u ++ rest) =
      if isMixed u then .found (Node.leaf .hexBlob u rest) rest else .absent := by
  obtain ⟨x, v, hu, hx, _⟩ := h.exists_cons
  refine blobBeyond_append h.run ?_ hr ?_
  · rw [hu]
    exact h.hex x hx
  · obtain ⟨t, ht⟩ := h.cover
    rw [ht, List.length_append, List.length_cons]
    omega

theorem placeholder_eq_absent (h : BeginsBlob g u rest) : placeholder (u ++ rest) = .absent :=
  delimiter_eq_absent (h.head?_ne rfl)

/-- Where a digit comes first, the other reading is that of a number. -/
theorem selectorItem_of_digit (h : BeginsBlob g u rest) (hdigit : g.head?.any Char.isDigit = true) :
    ∃ n after, ¬n.IsBlobItem u rest ∧ selectorItem (u ++ rest) =
      if isMixed u then .found (blobItem u rest) rest else .found n after := by
  obtain ⟨t, ht, _, hrun⟩ := h.isRun
  have hcover : u ++ rest = g ++ (t ++ rest) := by rw [ht, List.append_assoc]
  have hname : itemName (u ++ rest) = .absent := by
    refine wrap_of_absent ((orElse_of_absent (itemNameCaseSensitive_eq_absent
      (h.head?_ne rfl))).trans ?_)
    rw [hcover]
    exact word_eq_absent_of_refused hrun (by rw [hdigit]; rfl)
  obtain ⟨n, after, hnumber, hcategory, hlength⟩ : ∃ n after,
      number (u ++ rest) = .found n after ∧ n.category = .number ∧
        n.spelling.length ≤ g.length := by
    refine ⟨_, _, run_eq_found.mpr ⟨?_, rfl, rfl⟩, rfl, ?_⟩
    · obtain ⟨x, v, rfl, _, hx⟩ := h.exists_cons
      have hfirst : x.isDigit = true := by rwa [hx] at hdigit
      rw [List.cons_append, List.takeWhile_cons_of_pos hfirst]
      exact List.cons_ne_nil _ _
    · obtain ⟨t, rfl⟩ := h.cover
      rw [List.append_assoc]
      exact length_takeWhile_append_le rfl g _
  have hblob := h.blobBeyond hnumber hlength
  have hliteral : literal (u ++ rest) =
      if isMixed u then
        .found (Node.branch .literal (Node.chain [Node.leaf .hexBlob u rest]) rest) rest
      else .found (Node.branch .literal (Node.chain [n]) after) after := by
    cases hmixed : isMixed u with
    | true =>
        rw [hmixed, if_pos rfl] at hblob
        exact node_of_found (one_of_found (orElse_of_found (orElse_of_found
          (orElse_of_found hblob))))
    | false =>
        rw [hmixed, if_neg Bool.false_ne_true] at hblob
        exact node_of_found (one_of_found (orElse_of_found (orElse_of_found
          ((orElse_of_absent hblob).trans hnumber))))
  refine ⟨Node.branch .selectorItem (Node.chain [Node.branch .literal (Node.chain [n]) after]) after,
    after, ?_, ?_⟩
  · rintro ⟨_, literal, blob, hchildren, _, hinner, hblob, _⟩
    cases hchildren
    cases hinner
    exact absurd (hcategory.symm.trans hblob) (by decide)
  · rw [selectorItem, selector_of_itemName_absent _ hname]
    have hother := (orElse_of_absent h.placeholder_eq_absent).trans hliteral
    cases hmixed : isMixed u with
    | true =>
        rw [hmixed] at hother
        exact node_of_found (one_of_found hother)
    | false =>
        rw [hmixed] at hother
        exact node_of_found (one_of_found hother)

/-- A group of hexadecimal digits is too long for a clause word. -/
theorem isClauseWord_eq_false (h : BeginsBlob g u rest) : isClauseWord g = false := by
  by_contra hclause
  have hadd := upper_eq_add_of_isHexDigit (by simpa using hclause) h.hex
  have hlength := congrArg List.length hadd
  rw [Text.length_upper, h.length] at hlength
  cases hlength

theorem itemName_of_letter (h : BeginsBlob g u rest) (hletter : g.head?.any Char.isDigit = false) :
    ∃ n after, itemName (u ++ rest) = .found n after ∧ n.category = .itemName ∧
      n.spelling = g ∧ after.head? = some '-' := by
  obtain ⟨t, rfl, hhyphen, hrun⟩ := h.isRun
  have hword : itemNameCaseInsensitive (g ++ (t ++ rest)) =
      .found (Node.leaf .itemNameCaseInsensitive g (t ++ rest)) (t ++ rest) :=
    word_append hrun (by rw [hletter, h.isClauseWord_eq_false]; rfl)
  rw [← List.append_assoc] at hword
  refine ⟨_, t ++ rest, node_of_found (one_of_found ((orElse_of_absent
    (itemNameCaseSensitive_eq_absent (h.head?_ne rfl))).trans hword)), rfl, ?_, ?_⟩
  · exact List.append_nil g
  · rw [List.head?_append, hhyphen]
    rfl

/-- Where a letter comes first, the other reading is that of a name. -/
theorem selectorItem_of_letter (h : BeginsBlob g u rest)
    (hletter : g.head?.any Char.isDigit = false) : ∃ n after, ¬n.IsBlobItem u rest ∧
      selectorItem (u ++ rest) =
        if isMixed u then .found (blobItem u rest) rest else .found n after := by
  obtain ⟨n, after, hname, hcategory, hspelling, hhyphen⟩ := h.itemName_of_letter hletter
  have hblob := h.blobBeyond hname (Nat.le_of_eq (congrArg List.length hspelling))
  have hdot : accessor after = .absent := by
    refine delimiter_eq_absent ?_
    rw [hhyphen]
    exact fun hdot => nomatch Option.some.inj hdot
  have hqualified : qualifiedName .selectorItem (u ++ rest) =
      .found (Node.branch .selectorItem (Node.chain [n]) after) after :=
    node_of_found (seq_of_founds (one_of_found hname)
      (optional_of_absent (seq_of_absent (one_of_absent hdot))))
  refine ⟨Node.branch .selectorItem (Node.chain [n]) after, after, ?_, ?_⟩
  · rintro ⟨_, literal, _, hchildren, hliteral, _⟩
    cases hchildren
    exact absurd (hcategory.symm.trans hliteral) (by decide)
  · rw [selectorItem, selector, selectorUnder]
    cases hmixed : isMixed u with
    | true =>
        rw [hmixed, if_pos rfl] at hblob
        exact orElse_of_found (node_of_found (one_of_found
          (node_of_found (one_of_found hblob))))
    | false =>
        rw [hmixed, if_neg Bool.false_ne_true] at hblob
        exact (orElse_of_absent (wrap_of_absent (wrap_of_absent hblob))).trans
          (orElse_of_found hqualified)

end BeginsBlob

end Reading

theorem Text.IsUuid.beginsBlob {u rest : Text} (hu : u.IsUuid)
    (hrest : ∀ c ∈ rest.head?, isBlobChar c = false) : ∃ g, BeginsBlob g u rest := by
  obtain ⟨g, t, hcover, hlength, hhex, hblob⟩ := hu.exists_group
  refine ⟨g, ⟨t, hcover⟩, hlength, hhex, ?_, hblob, hrest⟩
  rintro rfl
  simp at hcover

/-- A UUID is one literal if it has both a digit and a letter, and only then. Where neither
a hexadecimal digit nor a hyphen follows, a UUID of digits and letters is read as a selector
that is a literal that is a blob, which covers the UUID. Any other UUID is read as something
else. -/
theorem uuid_is_one_literal_iff_mixed (depth : Nat) (source u rest : Text) (demand : Demand)
    (hu : u.IsUuid) (hrest : ∀ c ∈ rest.head?, isBlobChar c = false) :
    (∃ n, recognize depth source .selectorItem demand (u ++ rest) = .ok (some n) ∧
      n.IsBlobItem u rest) ↔ isMixed u = true := by
  obtain ⟨g, hg⟩ := hu.beginsBlob hrest
  obtain ⟨n, after, hother, hread⟩ : ∃ n after, ¬n.IsBlobItem u rest ∧ selectorItem (u ++ rest) =
      if isMixed u then .found (blobItem u rest) rest else .found n after := by
    cases hhead : g.head?.any Char.isDigit with
    | true => exact hg.selectorItem_of_digit hhead
    | false => exact hg.selectorItem_of_letter hhead
  cases hmixed : isMixed u with
  | true =>
      rw [hmixed, if_pos rfl] at hread
      exact iff_of_true ⟨_, recognize_of_found (Production.recognizer_of_found
        (p := .selectorItem) demand hread), isBlobItem_blobItem u rest⟩ rfl
  | false =>
      rw [hmixed, if_neg Bool.false_ne_true] at hread
      refine iff_of_false ?_ Bool.false_ne_true
      rintro ⟨m, hm, hblob⟩
      rw [recognize_of_found (Production.recognizer_of_found (p := .selectorItem) demand
        hread)] at hm
      obtain rfl : n = m := Option.some.inj (Except.ok.inj hm)
      exact hother hblob

theorem uuid_is_one_literal_iff_mixed_random :
    Text.IsUuid "123e4567-E89b-12d3-a456-426614174000".toList ∧
      ∃ n, recognize 64 [] .selectorItem .mandatory
          "123e4567-E89b-12d3-a456-426614174000) ;".toList = .ok (some n) ∧
        n.IsBlobItem "123e4567-E89b-12d3-a456-426614174000".toList ") ;".toList := by
  have hu : Text.IsUuid "123e4567-E89b-12d3-a456-426614174000".toList :=
    .of_all ["123e4567".toList, "E89b".toList, "12d3".toList, "a456".toList,
      "426614174000".toList] (by decide) (by decide) (by decide)
  have hrest : ∀ c ∈ ") ;".toList.head?, isBlobChar c = false := by
    rintro _ ⟨⟩
    decide
  exact ⟨hu, (uuid_is_one_literal_iff_mixed 64 [] _ ") ;".toList .mandatory hu hrest).mpr
    (by decide)⟩

/-- The nil UUID is read as a number, of its first group alone. -/
theorem nil_uuid_is_not_one_literal :
    Text.IsUuid "00000000-0000-0000-0000-000000000000".toList ∧
      ¬∃ n, recognize 64 "00000000-0000-0000-0000-000000000000".toList .selectorItem .optional
          "00000000-0000-0000-0000-000000000000".toList = .ok (some n) ∧
        n.IsBlobItem "00000000-0000-0000-0000-000000000000".toList [] := by
  refine ⟨.of_all ["00000000".toList, "0000".toList, "0000".toList, "0000".toList,
    "000000000000".toList] (by decide) (by decide) (by decide), ?_⟩
  have hread : recognize 64 "00000000-0000-0000-0000-000000000000".toList .selectorItem .optional
      "00000000-0000-0000-0000-000000000000".toList =
        .ok (some (Node.branch .selectorItem (Node.chain [Node.branch .literal (Node.chain
          [Node.leaf .number "00000000".toList "-0000-0000-0000-000000000000".toList])
            "-0000-0000-0000-000000000000".toList]) "-0000-0000-0000-000000000000".toList)) := by
    rfl
  rintro ⟨n, hn, _, literal, blob, hchildren, _, hinner, hblob, _⟩
  rw [hread] at hn
  cases hn
  cases hchildren
  cases hinner
  cases hblob

end QueryTree
