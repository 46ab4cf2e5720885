import Mathlib.Data.List.Chain
import QueryTree.Proofs.Marks.Scan

/-!
# Marks that stand alone

A mark stands alone in a source if neither a quote nor another mark touches it. All
marks stand alone exactly if no two of the strings and marks among the tokens follow one
another.
-/

namespace QueryTree.Node

/-- Whether a node is a string or a bind marker. -/
def isDelimited (n : Node) : Bool :=
  n.category = .string ∨ n.category = .placeholderInject

/-- Whether no two of the strings and marks among some tokens follow one another. -/
def Apart (ns : List Node) : Prop :=
  ns.IsChain fun n m => ¬(n.isDelimited = true ∧ m.isDelimited = true)

/-- The characters that may not touch a mark. -/
def clashing : List (Option Char) :=
  [some '\'', some '?']

/-- Whether neither a quote nor a mark touches a node, before it or after it. -/
def StandsAlone (source : Text) (n : Node) : Prop :=
  ∀ before, before ++ n.spelling ++ n.following = source →
    before.getLast? ∉ clashing ∧ n.following.head? ∉ clashing

theorem isDelimited_iff {n : Node} :
    n.isDelimited = true ↔ n.category = .string ∨ n.category = .placeholderInject := by
  simp [isDelimited]

theorem IsToken.inert_of_isDelimited {n : Node} (h : n.IsToken) (hn : ¬n.isDelimited = true) :
    Text.Inert n.spelling := by
  rw [isDelimited_iff, not_or] at hn
  exact h.inert hn.1 hn.2

theorem Inert.notMem_clashing {w : Text} (hw : Text.Inert w) {c : Option Char}
    (hc : ∀ d ∈ c, d ∈ w) : c ∉ clashing := by
  cases c with
  | none => simp [clashing]
  | some d =>
      have := hw d (hc d rfl)
      simp [clashing, this.1, this.2]

/-- A string and a mark begin with a quote or a mark and end with one. -/
theorem IsToken.clashing {n : Node} (h : n.IsToken) (hn : n.isDelimited = true) :
    n.spelling.head? ∈ clashing ∧ n.spelling.getLast? ∈ clashing := by
  rcases isDelimited_iff.mp hn with hc | hc
  · obtain ⟨s, hs⟩ := h.eq_quoted hc
    rw [hs]
    constructor
    · simp [Text.quoted, Node.clashing]
    · simp [Text.quoted, Node.clashing, List.getLast?_cons]
  · rw [h.eq_mark hc]
    decide

theorem IsToken.head?_append {n : Node} (h : n.IsToken) (t : Text) :
    (n.spelling ++ t).head? = n.spelling.head? := by
  rw [List.head?_append, Option.or_of_isSome]
  exact List.isSome_head?.mpr h.spelling_ne_nil

theorem IsToken.getLast?_append {n : Node} (h : n.IsToken) (t : Text) :
    (t ++ n.spelling).getLast? = n.spelling.getLast? := by
  rw [List.getLast?_append, Option.or_of_isSome]
  exact List.getLast?_isSome.mpr h.spelling_ne_nil

theorem mem_of_mem_marks {n : Node} {ns : List Node} (h : n ∈ marks ns) :
    n ∈ ns ∧ n.isDelimited = true := by
  obtain ⟨hn, hc⟩ := List.mem_filter.mp h
  exact ⟨hn, isDelimited_iff.mpr (Or.inr (by simpa using hc))⟩

/-- A mark among tokens that are apart stands alone. -/
theorem Apart.standsAlone {ns : List Node} {source : Text} (h : Apart ns)
    (htiles : Tiles source ns []) (htokens : ∀ n ∈ ns, n.IsToken) {n : Node}
    (hn : n ∈ marks ns) : n.StandsAlone source := by
  intro before hbefore
  obtain ⟨hmem, hdelimited⟩ := mem_of_mem_marks hn
  obtain ⟨ks, ms, rfl⟩ := List.append_of_mem hmem
  have hpairs := List.isChain_iff_forall_rel_of_append_cons_cons.mp h
  obtain ⟨middle, hks, hcover, hms⟩ := htiles.split
  have hbefore' : before = (ks.map spelling).flatten := by
    have hsame := hks.flatten_append
    rw [← hcover, ← hbefore, List.append_assoc] at hsame
    exact (List.append_cancel_right hsame).symm
  constructor
  · rcases List.eq_nil_or_concat ks with rfl | ⟨ls, m, rfl⟩
    · rw [hbefore']
      simp [clashing]
    · have hm : ¬m.isDelimited = true := fun hm =>
        @hpairs m n ls ms (by simp) ⟨hm, hdelimited⟩
      have htoken : m.IsToken := htokens m (by simp)
      have hlast : before = (ls.map spelling).flatten ++ m.spelling := by
        rw [hbefore']
        simp
      rw [hlast, htoken.getLast?_append]
      exact Inert.notMem_clashing (htoken.inert_of_isDelimited hm)
        fun d hd => List.mem_of_getLast? hd
  · cases ms with
    | nil =>
        rw [show n.following = [] from hms]
        simp [clashing]
    | cons m ms =>
        have hm : ¬m.isDelimited = true := fun hm =>
          @hpairs n m ks ms rfl ⟨hdelimited, hm⟩
        have htoken : m.IsToken := htokens m (by simp)
        rw [← hms.1, htoken.head?_append]
        exact Inert.notMem_clashing (htoken.inert_of_isDelimited hm)
          fun d hd => List.mem_of_head? hd

/-- Tokens whose marks stand alone are apart, for two strings never touch. -/
theorem apart_of_standsAlone {ns : List Node} {source : Text} (htiles : Tiles source ns [])
    (htokens : ∀ n ∈ ns, n.IsToken) (h : ∀ n ∈ marks ns, n.StandsAlone source) :
    Apart ns := by
  apply List.isChain_iff_forall_rel_of_append_cons_cons.mpr
  rintro n m ks ms rfl ⟨hn, hm⟩
  obtain ⟨middle, hks, hcover, hcover', _⟩ := htiles.split
  have hsource := hks.flatten_append
  have hn' : n.IsToken := htokens n (by simp)
  have hm' : m.IsToken := htokens m (by simp)
  have hmark : ∀ k ∈ [n, m], k.category = .placeholderInject →
      k ∈ marks (ks ++ n :: m :: ms) := by
    intro k hk hc
    refine List.mem_filter.mpr ⟨?_, by simp [hc]⟩
    simp only [List.mem_cons, List.not_mem_nil, or_false] at hk
    rcases hk with rfl | rfl <;> simp
  rcases isDelimited_iff.mp hn with hc | hc
  · rcases isDelimited_iff.mp hm with hc' | hc'
    · obtain ⟨s, hs⟩ := hm'.eq_quoted hc'
      apply hn'.head?_following hc
      rw [← hcover', hs]
      rfl
    · refine (h m (hmark m (by simp) hc') ((ks.map spelling).flatten ++ n.spelling) ?_).1 ?_
      · rw [List.append_assoc, hcover', List.append_assoc, hcover, hsource]
      · rw [hn'.getLast?_append]
        exact (hn'.clashing hn).2
  · refine (h n (hmark n (by simp) hc) (ks.map spelling).flatten ?_).2 ?_
    · rw [List.append_assoc, hcover, hsource]
    · rw [← hcover', hm'.head?_append]
      exact (hm'.clashing hm).1

/-- The tokens are apart exactly if all marks among them stand alone. -/
theorem apart_iff {ns : List Node} {source : Text} (htiles : Tiles source ns [])
    (htokens : ∀ n ∈ ns, n.IsToken) :
    Apart ns ↔ ∀ n ∈ marks ns, n.StandsAlone source :=
  ⟨fun h _ hn => h.standsAlone htiles htokens hn, apart_of_standsAlone htiles htokens⟩

end QueryTree.Node
