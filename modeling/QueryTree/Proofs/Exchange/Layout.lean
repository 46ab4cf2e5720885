import QueryTree.Proofs.Exchange.Tree
import QueryTree.Proofs.Marks.Substitution
import QueryTree.Proofs.Tree.Paths

/-!
# Exchanging whitespace

Each run of whitespace of a source may be exchanged for any other one. The source is still
read, and its tree is the same but for the texts of the whitespace and of the nodes that
contain it. In the new source a run of whitespace ends where it ended before, so the new
texts of the leaves can be told from the source.
-/

namespace QueryTree

open Grammar

/-- Any whitespace for any other, and everything else as it stands. -/
def Exchange.relayout : Exchange where
  layout := fun _ _ => True
  string := Eq
  mark := fun s => s = none

namespace Node

/-- Whether a text may be exchanged for a leaf: any whitespace for whitespace, and nothing
but what it spells for another leaf. -/
def Relaid (n : Node) (w : Text) : Prop :=
  if n.category = .whitespace then w ≠ [] ∧ ∀ c ∈ w, Text.isLayout c = true
  else w = n.spelling

/-- Whether two nodes are the same but for whitespace. Leaves that are no whitespace spell
the same. -/
structure SameButLayout (n m : Node) : Prop where
  shape : m.shape = n.shape
  spelling : n.children = [] → n.category ≠ .whitespace → m.spelling = n.spelling

variable {n m : Node} {ns ms : List Node} {t u w : Text} {texts texts' : List Text}

theorem relaid_layout (hn : n.category = .whitespace) :
    n.Relaid w ↔ w ≠ [] ∧ ∀ c ∈ w, Text.isLayout c = true := by
  rw [Relaid, if_pos hn]

theorem relaid_other (hn : n.category ≠ .whitespace) : n.Relaid w ↔ w = n.spelling := by
  rw [Relaid, if_neg hn]

/-- A string has no whitespace for a leaf. -/
theorem ne_whitespace_of_mem_leaves (h : n.Everywhere Formed) (hc : n.category = .string)
    (hm : m ∈ n.leaves) : m.category ≠ .whitespace := by
  obtain ⟨hmem, hleaf⟩ := List.mem_filter.mp hm
  rcases mem_preorder_iff.mp hmem with rfl | ⟨k, hk, hmk⟩
  · rw [hc]
    exact Category.noConfusion
  · have hin := h.self.child_of_string hc hk
    have hk' : k.children = [] := (h.child hk).self.children_eq_nil (by
      revert hin; cases k.category <;> decide)
    rw [preorder_eq, hk', preorderAll, List.mem_singleton] at hmk
    rw [hmk]
    rintro hwhitespace
    rw [hwhitespace] at hin
    cases hin

/-- Leaves that are no whitespace stand as they are. -/
theorem map_spelling_of_relaid (h : List.Forall₂ Relaid ns texts)
    (hns : ∀ k ∈ ns, k.category ≠ .whitespace) : texts = ns.map spelling := by
  induction h with
  | nil => rfl
  | @cons k v ns texts hk _ ih =>
      rw [(relaid_other (hns k List.mem_cons_self)).mp hk,
        ih fun l hl => hns l (List.mem_cons_of_mem k hl), List.map_cons]

/-- What stands for a string is the string. -/
theorem flatten_of_relaid_string (h : n.Everywhere Formed) (hc : n.category = .string)
    (htexts : List.Forall₂ Relaid n.leaves texts) : texts.flatten = n.spelling := by
  rw [map_spelling_of_relaid htexts fun _ hm => ne_whitespace_of_mem_leaves h hc hm,
    (h.mono fun _ hm => hm.tiled).flatten_leaves]

/-- What stands for a row of leaves is in two parts if the row is. -/
theorem exists_of_relaid_append (h : List.Forall₂ Relaid (ns ++ ms) texts) :
    ∃ ws vs, texts = ws ++ vs ∧ List.Forall₂ Relaid ns ws ∧ List.Forall₂ Relaid ms vs := by
  refine ⟨texts.take ns.length, texts.drop ns.length, (List.take_append_drop _ _).symm, ?_, ?_⟩
  · exact (List.forall₂_take_append _ _ _ h.flip).flip
  · exact (List.forall₂_drop_append _ _ _ h.flip).flip

end Node

namespace Exchange

open Node

variable {n m : Node} {ns : List Node} {t u : Text} {texts : List Text}

/-- A source and what stands for its leaves are the same up to whitespace. -/
theorem texts_relayout (htiles : Tiles t ns []) (htokens : ∀ n ∈ ns, n.IsToken)
    (hformed : ∀ n ∈ ns, n.Everywhere Formed)
    (h : List.Forall₂ Relaid (ns.flatMap leaves) texts) : relayout.Texts t texts.flatten := by
  induction ns generalizing t texts with
  | nil =>
      rw [show t = [] from htiles, List.forall₂_nil_left_iff.mp h]
      exact .nil
  | cons n ns ih =>
      obtain ⟨rfl, hcover⟩ := htiles
      rw [List.flatMap_cons] at h
      obtain ⟨ws, vs, rfl, hws, hvs⟩ := exists_of_relaid_append h
      have hrest := ih hcover (fun m hm => htokens m (List.mem_cons_of_mem n hm))
        (fun m hm => hformed m (List.mem_cons_of_mem n hm)) hvs
      have hleaf : n.children = [] → ∃ w, n.Relaid w ∧ ws.flatten = w := by
        intro hn
        rw [leaves_of_isLeaf hn] at hws
        obtain ⟨w, vs', hw, hvs', rfl⟩ := List.forall₂_cons_left_iff.mp hws
        rw [List.forall₂_nil_left_iff.mp hvs']
        exact ⟨w, hw, by simp⟩
      rw [List.flatten_append]
      cases htokens n List.mem_cons_self with
      | string s hc hs hend =>
          rw [flatten_of_relaid_string (hformed n List.mem_cons_self) hc hws, hs]
          exact .piece (.string hend (mt (hrest.head?_quote Option.some_ne_none) hend) rfl) hrest
      | mark hc hn hs =>
          obtain ⟨w, hw, hflat⟩ := hleaf hn
          rw [hflat, (relaid_other (by rw [hc]; decide)).mp hw, hs]
          exact .piece (.mark rfl) hrest
      | layout hc hn hrun =>
          obtain ⟨w, hw, hflat⟩ := hleaf hn
          obtain ⟨hne, hall⟩ := (relaid_layout hc).mp hw
          rw [hflat]
          exact .piece (.layout hrun ⟨hne, hall, hrest.head?_layout hrun.2.2⟩ trivial)
            hrest
      | name body hc hn hbody halnum hs =>
          obtain ⟨w, hw, hflat⟩ := hleaf hn
          rw [hflat, (relaid_other (by rw [hc]; decide)).mp hw, hs]
          exact .piece (.name hbody halnum) hrest
      | plain hstring hmark hn hne hplain =>
          obtain ⟨w, hw, hflat⟩ := hleaf hn
          -- the characters of whitespace are special
          have hc : n.category ≠ .whitespace := by
            intro hc
            have hspells := (hformed n List.mem_cons_self).self.spells
            rw [hc] at hspells
            obtain ⟨x, hx⟩ := List.exists_mem_of_ne_nil _ hne
            exact Text.isPlain_iff.mp (hplain x hx) (isLayout_mem_special (hspells.2.1 x hx))
          rw [hflat, (relaid_other hc).mp hw]
          exact hrest.plains hplain

section Trees

theorem sameButLayout_leaf {c : Category} {w t u : Text} {p q : Option Nat} :
    Pathwise (fun _ => SameButLayout) ((leaf c w t).linked p q) ((leaf c w u).linked p q) :=
  .of_forall₂ ⟨rfl, fun _ _ => rfl⟩ .nil

theorem sameButLayout_quotation {s t u : Text} {p q : Option Nat} :
    Pathwise (fun _ => SameButLayout) ((quotation s t).linked p q)
      ((quotation s u).linked p q) := by
  cases s with
  | nil =>
      exact .of_forall₂ ⟨rfl, nofun⟩
        (.cons sameButLayout_leaf (.cons sameButLayout_leaf .nil))
  | cons c s =>
      exact .of_forall₂ ⟨rfl, nofun⟩
        (.cons sameButLayout_leaf (.cons sameButLayout_leaf
          (.cons sameButLayout_leaf .nil)))

/-- Trees that are the same up to an exchange of whitespace have the same nodes at the same
paths. -/
theorem Exchanged.sameButLayout (h : relayout.Exchanged n m) :
    Pathwise (fun _ => SameButLayout) n m := by
  induction h with
  | leaf hc hw => exact sameButLayout_leaf
  | layout h => exact .of_forall₂ ⟨rfl, fun _ h => absurd rfl h⟩ .nil
  | @string s s' t u p q h =>
      obtain rfl : s = s' := h
      exact sameButLayout_quotation
  | mark h => exact sameButLayout_leaf
  | filled h => cases h
  | @branch c ns ms t u p q hc hstring hlength h ih =>
      have hchildren : List.Forall₂ (Pathwise fun _ => SameButLayout) ns ms :=
        List.forall₂_iff_zip.mpr ⟨hlength, fun hx => ih _ hx⟩
      refine .of_forall₂ ⟨?_, ?_⟩ hchildren
      · exact congrArg (Shape.mk c p q) hlength.symm
      · rintro (rfl : ns = [])
        obtain rfl := List.length_eq_zero_iff.mp hlength.symm
        exact fun _ => rfl

end Trees

end Exchange

namespace Node

/-- The leaves of a tree that is the same but for whitespace may be exchanged for those of
the tree. -/
theorem relaid_leaves (h : Pathwise (fun _ => SameButLayout) n m) (hm : m.Everywhere Formed) :
    List.Forall₂ Relaid n.leaves (m.leaves.map spelling) := by
  induction n using induction_children generalizing m with
  | step n ih =>
      have hshape := h.self.shape
      have hlength : m.children.length = n.children.length := congrArg Shape.arity hshape
      by_cases hn : n.children = []
      · have hm' : m.children = [] := List.length_eq_zero_iff.mp (by rw [hlength, hn]; rfl)
        rw [leaves_of_isLeaf hn, leaves_of_isLeaf hm']
        refine .cons ?_ .nil
        by_cases hc : n.category = .whitespace
        · have hspells := hm.self.spells
          rw [show m.category = .whitespace from (congrArg Shape.category hshape).trans hc]
            at hspells
          exact (relaid_layout hc).mpr ⟨hspells.1, hspells.2.1⟩
        · exact (relaid_other hc).mpr (h.self.spelling hn hc)
      · have hm' : m.children ≠ [] := by
          intro hm'
          rw [hm'] at hlength
          exact hn (List.length_eq_zero_iff.mp hlength.symm)
        have hchildren : List.Forall₂
            (fun k k' => List.Forall₂ Relaid k.leaves (k'.leaves.map spelling))
            n.children m.children := by
          refine List.forall₂_iff_get.mpr ⟨hlength.symm, fun i hi hi' => ?_⟩
          have hchild := h.child (i := i)
          rw [List.getElem?_eq_getElem hi, List.getElem?_eq_getElem hi'] at hchild
          cases hchild with
          | some hchild =>
              exact ih _ (List.getElem_mem hi) hchild (hm.child (List.getElem_mem hi'))
        rw [leaves_of_children hn, leaves_of_children hm', List.map_flatMap]
        exact List.rel_flatMap hchildren fun _ _ hk => hk

/-- Whitespace begins what stands for some leaves only if it begins the leaves. -/
theorem head?_flatten_of_relaid (htiles : Tiles t ns []) (hne : ∀ k ∈ ns, k.Formed)
    (h : List.Forall₂ Relaid ns texts) (ht : ∀ c ∈ t.head?, Text.isLayout c = false) :
    ∀ c ∈ texts.flatten.head?, Text.isLayout c = false := by
  cases h with
  | nil => simp
  | @cons n w ns texts hw h =>
      obtain ⟨x, v, hx⟩ := List.exists_cons_of_ne_nil (hne n List.mem_cons_self).nonempty
      rw [← htiles.1, hx] at ht
      have hc : n.category ≠ .whitespace := by
        intro hc
        have hspells := (hne n List.mem_cons_self).spells
        rw [hc, hx] at hspells
        have hlayout := hspells.2.1 x List.mem_cons_self
        rw [ht x rfl] at hlayout
        cases hlayout
      rw [(relaid_other hc).mp hw, List.flatten_cons, hx]
      exact ht

/-- The texts that stand for leaves can be told from what they spell together. -/
theorem eq_of_relaid (htiles : Tiles t ns []) (hformed : ∀ k ∈ ns, k.Formed)
    (h : List.Forall₂ Relaid ns texts) (h' : List.Forall₂ Relaid ns texts')
    (hflat : texts.flatten = texts'.flatten) : texts = texts' := by
  induction ns generalizing t texts texts' with
  | nil => rw [List.forall₂_nil_left_iff.mp h, List.forall₂_nil_left_iff.mp h']
  | cons n ns ih =>
      obtain ⟨w, vs, hw, hvs, rfl⟩ := List.forall₂_cons_left_iff.mp h
      obtain ⟨w', vs', hw', hvs', rfl⟩ := List.forall₂_cons_left_iff.mp h'
      obtain ⟨_, hcover⟩ := htiles
      have hns : ∀ k ∈ ns, k.Formed := fun k hk => hformed k (List.mem_cons_of_mem n hk)
      rw [List.flatten_cons, List.flatten_cons] at hflat
      have hsame : w = w' := by
        -- both texts end where the leaf does, in front of what is no whitespace
        by_cases hc : n.category = .whitespace
        · have hspells := (hformed n List.mem_cons_self).spells
          rw [hc] at hspells
          obtain ⟨hne, hall⟩ := (relaid_layout hc).mp hw
          obtain ⟨hne', hall'⟩ := (relaid_layout hc).mp hw'
          have hrun : Text.IsRun Text.isLayout w vs.flatten :=
            ⟨hne, hall, head?_flatten_of_relaid hcover hns hvs hspells.2.2⟩
          have hrun' : Text.IsRun Text.isLayout w' vs'.flatten :=
            ⟨hne', hall', head?_flatten_of_relaid hcover hns hvs' hspells.2.2⟩
          rw [← hrun.takeWhile_append, hflat, hrun'.takeWhile_append]
        · rw [(relaid_other hc).mp hw, (relaid_other hc).mp hw']
      subst hsame
      rw [ih hcover hns hvs hvs' (List.append_cancel_left hflat)]

end Node

open Node in
/-- The whitespace of a query is of no account. If other whitespace is put in the place of
each run of whitespace of a query that is read, the new query is read as well, with the
texts that were put there and all others as they were. Its tree has the same nodes at the
same places, and its leaves spell the same if they are no whitespace. -/
theorem parse_relaid {depth : Nat} {q : Text} {root : Node} {texts : List Text}
    (h : parse depth q = .ok root) (htexts : List.Forall₂ Relaid root.leaves texts) :
    ∃ root', parse depth texts.flatten = .ok root' ∧ root'.leaves.map spelling = texts ∧
      ∀ path, Option.Rel SameButLayout (root.at? path) (root'.at? path) := by
  have hformed := formed_of_parse h
  have htokens : List.Forall₂ Relaid (root.tokens.flatMap leaves) texts := by
    rwa [← leaves_eq_flatMap_tokens]
  obtain ⟨root', h', hexchanged⟩ := exists_exchanged_tree h
    (Exchange.texts_relayout (tiles_tokens_of_parse h) (fun n hn => isToken_of_parse h hn)
      (fun n hn => hformed.of_mem (mem_preorder_of_mem_tokens hn)) htokens)
  have hsame := hexchanged.sameButLayout
  have hleaves := relaid_leaves hsame (formed_of_parse h')
  have hflat := (tiles_leaves_of_parse h').flatten_append
  rw [List.append_nil] at hflat
  have hall : ∀ n ∈ root.leaves, n.Formed := fun n hn => hformed n (List.mem_filter.mp hn).1
  exact ⟨root', h', (eq_of_relaid (tiles_leaves_of_parse h) hall htexts hleaves hflat.symm).symm,
    hsame⟩

open Node in
theorem parse_relaid_lines :
    ∃ root, parse 2 "SELECT a FROM t WHERE b = 'x y' ;".toList = .ok root ∧
      ∃ root', parse 2 (root.leaves.map fun n =>
          if n.category = .whitespace then ['\n', '\t'] else n.spelling).flatten = .ok root' ∧
        ∀ path, Option.Rel SameButLayout (root.at? path) (root'.at? path) := by
  obtain ⟨root, hroot⟩ := exists_tree_of_isOk 2 "SELECT a FROM t WHERE b = 'x y' ;".toList
    (by decide +kernel)
  have htexts : List.Forall₂ Relaid root.leaves (root.leaves.map fun n =>
      if n.category = .whitespace then ['\n', '\t'] else n.spelling) := by
    refine List.forall₂_map_right_iff.mpr (List.forall₂_same.mpr fun n _ => ?_)
    by_cases hc : n.category = .whitespace
    · rw [if_pos hc]
      exact (relaid_layout hc).mpr ⟨List.cons_ne_nil _ _, List.all_eq_true.mp rfl⟩
    · rw [if_neg hc]
      exact (relaid_other hc).mpr rfl
  obtain ⟨root', hroot', _, hsame⟩ := parse_relaid hroot htexts
  exact ⟨root, hroot, root', hroot', hsame⟩

end QueryTree
