import QueryTree.Proofs.Derivation.Quotation
import QueryTree.Proofs.Marks.Token

/-!
# Scanning for marks

A scan of a text without its tree. It goes from left to right and only remembers
whether it is inside of a string: every single quote changes that, and a bind marker
counts as a mark outside of strings only. On the text of a tree the scan meets the
bind markers of the tree and no others.
-/

namespace QueryTree

namespace Text

/-- The text with its marks replaced by texts in turn. -/
def fillMarks : Bool → Text → List Text → Text
  | _, [], _ => []
  | inString, c :: t, texts =>
    if c = '\'' then c :: fillMarks (!inString) t texts
    else if c = '?' ∧ inString = false then
      texts.headD [c] ++ fillMarks inString t texts.tail
    else c :: fillMarks inString t texts

/-- The byte offsets of the marks of a text that begins at a given offset. -/
def markOffsets : Bool → Nat → Text → List Nat
  | _, _, [] => []
  | inString, offset, c :: t =>
    if c = '\'' then markOffsets (!inString) (offset + c.utf8Size) t
    else if c = '?' ∧ inString = false then
      offset :: markOffsets inString (offset + c.utf8Size) t
    else markOffsets inString (offset + c.utf8Size) t

/-- Whether a text has neither quotes nor bind markers. -/
def Inert (w : Text) : Prop :=
  ∀ c ∈ w, c ≠ '\'' ∧ c ≠ '?'

theorem Inert.of_isPlain {w : Text} (h : ∀ c ∈ w, isPlain c = true) : Inert w := by
  intro c hc
  have := isPlain_iff.mp (h c hc)
  constructor
  · rintro rfl
    exact this (by decide)
  · rintro rfl
    exact this (by decide)

theorem fillMarks_inert {w : Text} (hw : Inert w) (inString : Bool) (t : Text)
    (texts : List Text) :
    fillMarks inString (w ++ t) texts = w ++ fillMarks inString t texts := by
  induction w with
  | nil => rfl
  | cons c w ih =>
      obtain ⟨hquote, hmark⟩ := hw c List.mem_cons_self
      rw [List.cons_append, fillMarks, if_neg hquote, if_neg (fun h => hmark h.1),
        ih fun d hd => hw d (List.mem_cons_of_mem c hd), List.cons_append]

theorem markOffsets_inert {w : Text} (hw : Inert w) (inString : Bool) (offset : Nat)
    (t : Text) :
    markOffsets inString offset (w ++ t) = markOffsets inString (offset + byteSize w) t := by
  induction w generalizing offset with
  | nil => rfl
  | cons c w ih =>
      obtain ⟨hquote, hmark⟩ := hw c List.mem_cons_self
      rw [List.cons_append, markOffsets, if_neg hquote, if_neg (fun h => hmark h.1),
        ih fun d hd => hw d (List.mem_cons_of_mem c hd), byteSize_cons, Nat.add_assoc]

/-- Two quotes in a row inside of a string leave the scan inside. -/
theorem fillMarks_doubleQuotes (s t : Text) (texts : List Text) :
    fillMarks true (doubleQuotes s ++ t) texts = doubleQuotes s ++ fillMarks true t texts := by
  induction s with
  | nil => rfl
  | cons c s ih =>
      by_cases hc : c = '\''
      · subst hc
        simp [fillMarks, ih]
      · rw [doubleQuotes_cons_of_ne hc, List.cons_append, fillMarks, if_neg hc,
          if_neg (by simp), ih, List.cons_append]

theorem markOffsets_doubleQuotes (s t : Text) (offset : Nat) :
    markOffsets true offset (doubleQuotes s ++ t) =
      markOffsets true (offset + byteSize (doubleQuotes s)) t := by
  induction s generalizing offset with
  | nil => rfl
  | cons c s ih =>
      by_cases hc : c = '\''
      · subst hc
        simp [markOffsets, ih, Nat.add_assoc]
      · rw [doubleQuotes_cons_of_ne hc, List.cons_append, markOffsets, if_neg hc,
          if_neg (by simp), ih, byteSize_cons, Nat.add_assoc]

/-- A string is copied as it stands. -/
theorem fillMarks_quoted (s t : Text) (texts : List Text) :
    fillMarks false (quoted s ++ t) texts = quoted s ++ fillMarks false t texts := by
  rw [quoted_append, quoted_append, fillMarks, if_pos rfl, Bool.not_false,
    fillMarks_doubleQuotes, fillMarks, if_pos rfl, Bool.not_true]

theorem markOffsets_quoted (s t : Text) (offset : Nat) :
    markOffsets false offset (quoted s ++ t) =
      markOffsets false (offset + byteSize (quoted s)) t := by
  rw [quoted_append, markOffsets, if_pos rfl, Bool.not_false, markOffsets_doubleQuotes,
    markOffsets, if_pos rfl, Bool.not_true]
  simp [quoted, Nat.add_assoc]

theorem fillMarks_mark (t : Text) (texts : List Text) :
    fillMarks false ('?' :: t) texts = texts.headD ['?'] ++ fillMarks false t texts.tail := by
  simp [fillMarks]

theorem markOffsets_mark (t : Text) (offset : Nat) :
    markOffsets false offset ('?' :: t) = offset :: markOffsets false (offset + 1) t := by
  simp [markOffsets, show '?'.utf8Size = 1 by decide]

theorem le_of_mem_markOffsets {inString : Bool} {offset k : Nat} {t : Text}
    (h : k ∈ markOffsets inString offset t) : offset ≤ k := by
  induction t generalizing inString offset with
  | nil => cases h
  | cons c t ih =>
      unfold markOffsets at h
      split at h
      · exact (Nat.le_add_right _ _).trans (ih h)
      · split at h
        · rcases List.mem_cons.mp h with rfl | h
          · exact Nat.le_refl k
          · exact (Nat.le_add_right _ _).trans (ih h)
        · exact (Nat.le_add_right _ _).trans (ih h)

/-- The scan goes from left to right. -/
theorem markOffsets_pairwise (inString : Bool) (offset : Nat) (t : Text) :
    (markOffsets inString offset t).Pairwise (· < ·) := by
  induction t generalizing inString offset with
  | nil => exact List.Pairwise.nil
  | cons c t ih =>
      unfold markOffsets
      split
      · exact ih _ _
      · split
        · refine List.pairwise_cons.mpr ⟨fun k hk => ?_, ih _ _⟩
          exact Nat.lt_of_lt_of_le (Nat.lt_add_of_pos_right c.utf8Size_pos)
            (le_of_mem_markOffsets hk)
        · exact ih _ _

end Text

namespace Node

/-- The byte offset at which a node of the tree of a source begins. -/
def start (source : Text) (n : Node) : Nat :=
  Text.byteSize source - Text.byteSize (n.spelling ++ n.following)

/-- The texts of tokens, joined, with the marks replaced by texts in turn. -/
def fillTokens : List Node → List Text → Text
  | [], _ => []
  | n :: ns, texts =>
    if n.category = .placeholderInject then texts.headD n.spelling ++ fillTokens ns texts.tail
    else n.spelling ++ fillTokens ns texts

/-- The marks among some tokens. -/
def marks (ns : List Node) : List Node :=
  ns.filter fun n => n.category = .placeholderInject

theorem marks_cons_of_eq {n : Node} (h : n.category = .placeholderInject) (ns : List Node) :
    marks (n :: ns) = n :: marks ns :=
  List.filter_cons_of_pos (by simp [h])

theorem marks_cons_of_ne {n : Node} (h : n.category ≠ .placeholderInject) (ns : List Node) :
    marks (n :: ns) = marks ns :=
  List.filter_cons_of_neg (by simp [h])

/-- The marks of the first tokens take the first texts. -/
theorem fillTokens_append (ns ms : List Node) (texts : List Text) :
    fillTokens (ns ++ ms) texts =
      fillTokens ns texts ++ fillTokens ms (texts.drop (marks ns).length) := by
  induction ns generalizing texts with
  | nil => rfl
  | cons n ns ih =>
      by_cases hmark : n.category = .placeholderInject
      · rw [List.cons_append, fillTokens, if_pos hmark, fillTokens, if_pos hmark, ih,
          marks_cons_of_eq hmark, List.length_cons, List.append_assoc, List.drop_tail]
      · rw [List.cons_append, fillTokens, if_neg hmark, fillTokens, if_neg hmark, ih,
          marks_cons_of_ne hmark, List.append_assoc]

theorem IsToken.eq_quoted {n : Node} (h : n.IsToken) (hstring : n.category = .string) :
    ∃ s, n.spelling = Text.quoted s := by
  cases h with
  | string s hc hs hend => exact ⟨s, hs⟩
  | mark hc hleaf hs => exact absurd (hc.symm.trans hstring) (by decide)
  | layout hc hleaf hrun => exact absurd (hc.symm.trans hstring) (by decide)
  | name body hc hleaf hbody halnum hs => exact absurd (hc.symm.trans hstring) (by decide)
  | plain hne hmark hleaf _ hplain => exact absurd hstring hne

/-- The text after a string does not go on with a quote. -/
theorem IsToken.head?_following {n : Node} (h : n.IsToken) (hstring : n.category = .string) :
    n.following.head? ≠ some '\'' := by
  cases h with
  | string s hc hs hend => exact hend
  | mark hc hleaf hs => exact absurd (hc.symm.trans hstring) (by decide)
  | layout hc hleaf hrun => exact absurd (hc.symm.trans hstring) (by decide)
  | name body hc hleaf hbody halnum hs => exact absurd (hc.symm.trans hstring) (by decide)
  | plain hne hmark hleaf _ hplain => exact absurd hstring hne

theorem IsToken.eq_mark {n : Node} (h : n.IsToken) (hmark : n.category = .placeholderInject) :
    n.spelling = ['?'] := by
  cases h with
  | mark hc hleaf hs => exact hs
  | string s hc hs hend => exact absurd (hc.symm.trans hmark) (by decide)
  | layout hc hleaf hrun => exact absurd (hc.symm.trans hmark) (by decide)
  | name body hc hleaf hbody halnum hs => exact absurd (hc.symm.trans hmark) (by decide)
  | plain hstring hne hleaf _ hplain => exact absurd hmark hne

theorem IsToken.spelling_ne_nil {n : Node} (h : n.IsToken) : n.spelling ≠ [] := by
  cases h with
  | string s hc hs hend => simp [hs, Text.quoted]
  | mark hc hleaf hs => simp [hs]
  | layout hc hleaf hrun => exact hrun.1
  | name body hc hleaf hbody halnum hs => simp [hs]
  | plain hstring hmark hleaf hne hplain => exact hne

theorem IsToken.inert {n : Node} (h : n.IsToken) (hstring : n.category ≠ .string)
    (hmark : n.category ≠ .placeholderInject) : Text.Inert n.spelling := by
  cases h with
  | string s hc hs hend => exact absurd hc hstring
  | mark hc hleaf hs => exact absurd hc hmark
  | layout hc hleaf hrun =>
      intro c hc
      have hlayout := hrun.2.1 c hc
      constructor <;> rintro rfl <;> cases hlayout
  | name body hc hleaf hbody halnum hs =>
      have hplain := Text.Inert.of_isPlain fun c hc => Text.isPlain_of_isAlphanum (halnum c hc)
      intro c hc
      rw [hs, List.mem_cons, List.mem_append, List.mem_singleton] at hc
      rcases hc with rfl | hc | rfl
      · decide
      · exact hplain c hc
      · decide
  | plain hstring hmark hleaf _ hplain => exact Text.Inert.of_isPlain hplain

/-- On the text of tokens, replacing the marks that the scan meets is replacing the
marks among the tokens. -/
theorem fillMarks_eq_fillTokens {ns : List Node} {t : Text} (htiles : Tiles t ns [])
    (htokens : ∀ n ∈ ns, n.IsToken) (texts : List Text) :
    Text.fillMarks false t texts = fillTokens ns texts := by
  induction ns generalizing t texts with
  | nil =>
      rw [show t = [] from htiles]
      rfl
  | cons n ns ih =>
      obtain ⟨rfl, hns⟩ := htiles
      have hn := htokens n List.mem_cons_self
      have htail := ih hns fun m hm => htokens m (List.mem_cons_of_mem n hm)
      by_cases hstring : n.category = .string
      · obtain ⟨s, hs⟩ := hn.eq_quoted hstring
        rw [hs, Text.fillMarks_quoted, htail, fillTokens, if_neg (by simp [hstring]), hs]
      · by_cases hmark : n.category = .placeholderInject
        · rw [hn.eq_mark hmark, List.singleton_append, Text.fillMarks_mark, htail, fillTokens,
            if_pos hmark, hn.eq_mark hmark]
        · rw [Text.fillMarks_inert (hn.inert hstring hmark), htail, fillTokens, if_neg hmark]

/-- The marks that the scan meets begin where the marks among the tokens do. -/
theorem markOffsets_eq_start {ns : List Node} {t source : Text} (htiles : Tiles t ns [])
    (htokens : ∀ n ∈ ns, n.IsToken) (hsource : t <:+ source) :
    Text.markOffsets false (Text.byteSize source - Text.byteSize t) t =
      (marks ns).map (start source) := by
  induction ns generalizing t with
  | nil =>
      rw [show t = [] from htiles]
      rfl
  | cons n ns ih =>
      obtain ⟨rfl, hns⟩ := htiles
      obtain ⟨before, hbefore⟩ := hsource
      have hn := htokens n List.mem_cons_self
      have hnext : Text.byteSize source - Text.byteSize (n.spelling ++ n.following) +
          Text.byteSize n.spelling = Text.byteSize source - Text.byteSize n.following := by
        rw [← hbefore]
        simp only [Text.byteSize_append]
        omega
      have htail := ih hns (fun m hm => htokens m (List.mem_cons_of_mem n hm))
        ⟨before ++ n.spelling, by rw [List.append_assoc, hbefore]⟩
      by_cases hstring : n.category = .string
      · obtain ⟨s, hs⟩ := hn.eq_quoted hstring
        rw [hs] at hnext ⊢
        rw [Text.markOffsets_quoted, hnext, htail, marks_cons_of_ne (by simp [hstring])]
      · by_cases hmark : n.category = .placeholderInject
        · have hsize : Text.byteSize n.spelling = 1 := by
            rw [hn.eq_mark hmark]
            decide
          rw [hsize] at hnext
          conv_lhs => rw [hn.eq_mark hmark, List.singleton_append, Text.markOffsets_mark]
          rw [marks_cons_of_eq hmark, List.map_cons, ← htail, ← hnext, hn.eq_mark hmark, start,
            hn.eq_mark hmark, List.singleton_append]
        · rw [Text.markOffsets_inert (hn.inert hstring hmark), hnext, htail,
            marks_cons_of_ne hmark]

end Node

end QueryTree
