import QueryTree.Proofs.Exchange.Layout

/-!
# Exchanging strings

The text that a string stands for may be exchanged for any other one. Whatever it contains,
be it keywords, brackets, bind markers or quotes, the source is still read, and its tree is
the same but for the insides of its strings. A string ends where its quotation does, so the
new texts of the tokens can be told from the source.
-/

namespace QueryTree

open Grammar

/-- Any string for any other, and everything else as it stands. -/
def Exchange.restring : Exchange where
  layout := Eq
  string := fun _ _ => True
  mark := fun s => s = none

namespace Node

/-- Whether a text may be exchanged for a token: the quotation of any text for a string, and
nothing but what it spells for another token. -/
def Restrung (n : Node) (w : Text) : Prop :=
  if n.category = .string then ∃ s, w = Text.quoted s else w = n.spelling

/-- Whether two trees are the same but for the insides of strings. A string stands in the
place of a string, each made of the quotes and the body of some text, and has the same
links. Any other node has a node of the same category, with the same links and as many
children, in its place, and spells the same if it is a leaf. -/
inductive SameButStrings : Node → Node → Prop where
  | string (s s' : Text) {t u : Text} {p q : Option Nat} :
      SameButStrings ((quotation s t).linked p q) ((quotation s' u).linked p q)
  | other {n m : Node} (hc : n.category ≠ .string) (hshape : m.shape = n.shape)
      (hspelling : n.children = [] → m.spelling = n.spelling)
      (hchildren : ∀ x ∈ n.children.zip m.children, SameButStrings x.1 x.2) :
      SameButStrings n m

variable {n : Node} {w : Text}

theorem restrung_string (hn : n.category = .string) :
    n.Restrung w ↔ ∃ s, w = Text.quoted s := by
  rw [Restrung, if_pos hn]

theorem restrung_other (hn : n.category ≠ .string) : n.Restrung w ↔ w = n.spelling := by
  rw [Restrung, if_neg hn]

end Node

namespace Exchange

open Node

variable {n m : Node} {ns : List Node} {t : Text} {texts : List Text}

/-- A source and what stands for its tokens are the same up to the strings. -/
theorem texts_restring (htiles : Tiles t ns []) (htokens : ∀ n ∈ ns, n.IsToken)
    (h : List.Forall₂ Restrung ns texts) : restring.Texts t texts.flatten := by
  induction h generalizing t with
  | nil =>
      rw [show t = [] from htiles]
      exact .nil
  | @cons n w ns texts hw _ ih =>
      obtain ⟨rfl, hcover⟩ := htiles
      have hrest := ih hcover fun m hm => htokens m (List.mem_cons_of_mem n hm)
      rw [List.flatten_cons]
      cases htokens n List.mem_cons_self with
      | string s hc hs hend =>
          obtain ⟨s', rfl⟩ := (restrung_string hc).mp hw
          rw [hs]
          exact .piece (.string hend (mt (hrest.head?_quote Option.some_ne_none) hend) trivial) hrest
      | mark hc _ hs =>
          rw [(restrung_other (by rw [hc]; decide)).mp hw, hs]
          exact .piece (.mark rfl) hrest
      | layout hc _ hrun =>
          rw [(restrung_other (by rw [hc]; decide)).mp hw]
          exact .piece (.layout hrun ⟨hrun.1, hrun.2.1, hrest.head?_layout hrun.2.2⟩ rfl) hrest
      | name body hc _ hbody halnum hs =>
          rw [(restrung_other (by rw [hc]; decide)).mp hw, hs]
          exact .piece (.name hbody halnum) hrest
      | plain hstring _ _ _ hplain =>
          rw [(restrung_other hstring).mp hw]
          exact hrest.plains hplain

/-- Trees that are the same up to an exchange of strings are the same but for the insides of
strings. -/
theorem Exchanged.sameButStrings (h : restring.Exchanged n m) : SameButStrings n m := by
  induction h with
  | leaf hc hw =>
      refine .other ?_ rfl (fun _ => rfl) nofun
      rintro (rfl : _ = Category.string)
      cases hc
  | layout h =>
      obtain rfl := h
      exact .other nofun rfl (fun _ => rfl) nofun
  | string h => exact .string _ _
  | mark h => exact .other nofun rfl (fun _ => rfl) nofun
  | filled h => cases h
  | @branch c ns ms t u p q hc hstring hlength h ih =>
      refine .other hstring (congrArg (Shape.mk c p q) hlength.symm) ?_ ih
      rintro (rfl : ns = [])
      obtain rfl := List.length_eq_zero_iff.mp hlength.symm
      rfl

end Exchange

namespace Node

variable {n m : Node} {ns : List Node} {t : Text} {texts texts' : List Text}

/-- The tokens of a tree that is the same but for strings may be exchanged for those of the
tree. -/
theorem restrung_tokens (h : SameButStrings n m) :
    List.Forall₂ Restrung n.tokens (m.tokens.map spelling) := by
  induction h with
  | @string s s' t u p q =>
      rw [tokens_of_whole (Or.inl rfl), tokens_of_whole (Or.inl rfl)]
      exact .cons ((restrung_string rfl).mpr ⟨s', quotation_spelling s' u⟩) .nil
  | @other n m hc hshape hspelling _ ih =>
      have hlength : m.children.length = n.children.length := congrArg Shape.arity hshape
      by_cases hn : n.children = []
      · have hm : m.children = [] := List.length_eq_zero_iff.mp (by rw [hlength, hn]; rfl)
        rw [tokens_of_whole (Or.inr hn), tokens_of_whole (Or.inr hm)]
        exact .cons ((restrung_other hc).mpr (hspelling hn)) .nil
      · have hm : m.children ≠ [] := fun hm =>
          hn (List.length_eq_zero_iff.mp (by rw [← hlength, hm]; rfl))
        have hcm : m.category ≠ .string := by
          rwa [show m.category = n.category from congrArg Shape.category hshape]
        have hchildren : List.Forall₂
            (fun k k' => List.Forall₂ Restrung k.tokens (k'.tokens.map spelling))
            n.children m.children := List.forall₂_iff_zip.mpr ⟨hlength.symm, fun hx => ih _ hx⟩
        rw [tokens_of_parts hc hn, tokens_of_parts hcm hm, List.map_flatMap]
        exact List.rel_flatMap hchildren fun _ _ hk => hk

open Exchange in
/-- The texts that stand for tokens can be told from what they spell together. -/
theorem eq_of_restrung (htiles : Tiles t ns []) (htokens : ∀ k ∈ ns, k.IsToken)
    (h : List.Forall₂ Restrung ns texts) (h' : List.Forall₂ Restrung ns texts')
    (hflat : texts.flatten = texts'.flatten) : texts = texts' := by
  induction h generalizing t texts' with
  | nil => rw [List.forall₂_nil_left_iff.mp h']
  | @cons n w ns texts hw hws ih =>
      obtain ⟨w', vs, hw', hvs, rfl⟩ := List.forall₂_cons_left_iff.mp h'
      obtain ⟨_, hcover⟩ := htiles
      have hns : ∀ k ∈ ns, k.IsToken := fun k hk => htokens k (List.mem_cons_of_mem n hk)
      rw [List.flatten_cons, List.flatten_cons] at hflat
      have hsame : w = w' ∧ texts.flatten = vs.flatten := by
        by_cases hc : n.category = .string
        · -- what stands after a string does not begin with a quote, as nothing does that
          -- stands for tokens which do not
          have hend : ∀ {us : List Text}, List.Forall₂ Restrung ns us →
              us.flatten.head? ≠ some '\'' := fun hus => by
            have htexts := texts_restring hcover hns hus
            exact mt (htexts.head?_quote Option.some_ne_none)
              ((htokens n List.mem_cons_self).head?_following hc)
          obtain ⟨s, rfl⟩ := (restrung_string hc).mp hw
          obtain ⟨s', rfl⟩ := (restrung_string hc).mp hw'
          obtain ⟨rfl, hrest⟩ := quoted_append_inj (hend hws) (hend hvs) hflat
          exact ⟨rfl, hrest⟩
        · rw [(restrung_other hc).mp hw, (restrung_other hc).mp hw'] at hflat ⊢
          exact ⟨rfl, List.append_cancel_left hflat⟩
      rw [hsame.1, ih hcover hns hvs hsame.2]

end Node

open Node in
/-- What is in the strings of a query never tells how the query is read. If the quotation of
any text is put in the place of each of some strings of a query that is read, the new query
is read under the same limit, with the quotations that were put there and all other tokens
as they were. Its tree is the same but for the insides of the strings. -/
theorem parse_restrung {depth : Nat} {q : Text} {root : Node} {texts : List Text}
    (h : parse depth q = .ok root) (htexts : List.Forall₂ Restrung root.tokens texts) :
    (root.tokens.map spelling).flatten = q ∧
    ∃ root', parse depth texts.flatten = .ok root' ∧ root'.tokens.map spelling = texts ∧
      SameButStrings root root' := by
  have htiles := tiles_tokens_of_parse h
  have htokens : ∀ n ∈ root.tokens, n.IsToken := fun n hn => isToken_of_parse h hn
  obtain ⟨root', h', hexchanged⟩ :=
    exists_exchanged_tree h (Exchange.texts_restring htiles htokens htexts)
  have hsame := hexchanged.sameButStrings
  have hflat := (tiles_tokens_of_parse h').flatten_append
  rw [List.append_nil] at hflat
  refine ⟨by simpa using htiles.flatten_append, root', h', ?_, hsame⟩
  exact (eq_of_restrung htiles htokens htexts (restrung_tokens hsame) hflat.symm).symm

open Node in
/-- Two strings, of which the first is empty, that come to contain a command with a marker. -/
theorem parse_restrung_command :
    ∃ root, parse 2 "SELECT a FROM t WHERE b = '' AND c = 'x';".toList = .ok root ∧
      ∃ root', parse 2 (root.tokens.map fun n =>
          if n.category = .string then Text.quoted "\"'; DROP TABLE t ? [".toList
          else n.spelling).flatten = .ok root' ∧
        SameButStrings root root' := by
  obtain ⟨root, hroot⟩ := exists_tree_of_isOk 2
    "SELECT a FROM t WHERE b = '' AND c = 'x';".toList (by decide +kernel)
  have htexts : List.Forall₂ Restrung root.tokens (root.tokens.map fun n =>
      if n.category = .string then Text.quoted "\"'; DROP TABLE t ? [".toList
      else n.spelling) := by
    refine List.forall₂_map_right_iff.mpr (List.forall₂_same.mpr fun n _ => ?_)
    by_cases hc : n.category = .string
    · rw [if_pos hc]
      exact (restrung_string hc).mpr ⟨_, rfl⟩
    · rw [if_neg hc]
      exact (restrung_other hc).mpr rfl
  obtain ⟨_, root', hroot', _, hsame⟩ := parse_restrung hroot htexts
  exact ⟨root, hroot, root', hroot', hsame⟩

end QueryTree
