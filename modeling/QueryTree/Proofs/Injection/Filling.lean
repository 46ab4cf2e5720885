import QueryTree.Proofs.Injection.Insert

/-!
# Filling the marks of a source

A source whose marks stand alone and the same source with strings for its marks are
the same up to an exchange. So the filled source is read into the tree of the source with
these strings for its placeholders. Strings that are written next to each other would
run together, and marks that do not stand alone are the only place where this happens.
-/

namespace QueryTree

open Grammar

/-- Strings for all marks, and everything else as it stands. -/
def Exchange.filling : Exchange where
  layout := Eq
  string := Eq
  mark := fun s => s.isSome = true

namespace Node

variable {n m : Node} {ns ms : List Node} {t rest : Text} {texts : List Text}

theorem insertTexts_quotation (s t rest : Text) (p q : Option Nat) :
    ((quotation s t).linked p q).insertTexts [] rest = (quotation s rest).linked p q := by
  cases s with
  | nil => rfl
  | cons c s =>
      have hchildren : ((quotation (c :: s) t).linked p q).children ≠ [] :=
        List.cons_ne_nil _ _
      rw [insertTexts_of_inner (by exact Category.noConfusion) hchildren]
      simp [quotation, quotationParts, chain, chainFrom, linked, branch, insertTextsAll,
        insertTexts, leaf]

theorem countOpen_quotation (s t : Text) (p q : Option Nat) :
    ((quotation s t).linked p q).countOpen .placeholderInject = 0 := by
  cases s <;> rfl

/-- A list of trees that is the same up to a filling is the list with some texts for its
placeholders if this holds of each tree. -/
theorem exists_insertTextsAll (hlength : ns.length = ms.length)
    (h : ∀ x ∈ ns.zip ms, ∃ texts, texts.length = x.1.countOpen .placeholderInject ∧
      x.2 = x.1.insertTexts texts x.2.following)
    (hformed : ∀ n ∈ ns, n.Everywhere Formed) (htiles : Tiles t ms rest) :
    ∃ texts, texts.length = countOpenAll .placeholderInject ns ∧
      ms = insertTextsAll texts rest ns := by
  induction ns generalizing ms t with
  | nil =>
      obtain rfl := List.length_eq_zero_iff.mp hlength.symm
      exact ⟨[], rfl, rfl⟩
  | cons n ns ih =>
      obtain ⟨m, ms, rfl⟩ := List.exists_cons_of_length_eq_add_one hlength.symm
      obtain ⟨first, hfirst, hm⟩ := h (n, m) List.mem_cons_self
      obtain ⟨more, hmore, hms⟩ := ih (Nat.succ.inj hlength)
        (fun x hx => h x (List.mem_cons_of_mem _ hx))
        (fun k hk => hformed k (List.mem_cons_of_mem n hk)) htiles.2
      refine ⟨first ++ more, by rw [List.length_append, hfirst, hmore, countOpenAll], ?_⟩
      rw [insertTextsAll, ← hfirst, List.drop_left, ← hms, htiles.2.flatten_append,
        insertTexts_append (hformed n List.mem_cons_self) hfirst.ge]
      exact congrArg (· :: ms) hm

/-- A tree that is the same up to a filling is the tree with some texts for its
placeholders. -/
theorem exists_insertTexts (h : Exchange.filling.Exchanged n m) (hn : n.Everywhere Formed)
    (hm : m.Everywhere Tiled) :
    ∃ texts, texts.length = n.countOpen .placeholderInject ∧
      m = n.insertTexts texts m.following := by
  induction h with
  | @leaf c w t u p q hc hw =>
      have hmark : c ≠ .placeholderInject := by
        rintro rfl
        have hspells : w = ['?'] := hn.self.spells
        exact (hw '?' (by rw [hspells]; exact List.mem_singleton_self _)).2 rfl
      refine ⟨[], ?_, ?_⟩
      · rw [hn.self.countOpen_other hmark]
        rfl
      · rw [insertTexts_of_leaf hmark rfl]
        rfl
  | @layout w v t u p q h =>
      obtain rfl : w = v := h
      exact ⟨[], rfl, rfl⟩
  | @string s s' t u p q h =>
      obtain rfl : s = s' := h
      exact ⟨[], (countOpen_quotation s t p q).symm, (insertTexts_quotation s t u p q).symm⟩
  | mark h => cases h
  | @filled s t u p q h => exact ⟨[s], rfl, rfl⟩
  | @branch c ns ms t u p q hc hstring hlength h ih =>
      have hmark : c ≠ .placeholderInject := by
        rintro rfl
        cases hc
      have hns : ns ≠ [] := hn.self.children_ne_nil hc
      have hms : ms ≠ [] := by
        rintro rfl
        exact hns (List.length_eq_zero_iff.mp hlength)
      have htiles : Tiles _ ms u := hm.self hms
      obtain ⟨texts, htexts, rfl⟩ := exists_insertTextsAll hlength
        (fun x hx => ih x hx (hn.child (List.of_mem_zip hx).1) (hm.child (List.of_mem_zip hx).2))
        (fun k hk => hn.child hk) htiles
      refine ⟨texts, ?_, ?_⟩
      · rw [hn.self.countOpen_other hmark, htexts]
        rfl
      · rw [insertTexts_of_inner hmark hns]
        rfl

/-- Strings for marks that are apart begin no text of tokens that begins otherwise. -/
theorem head?_fillTokens (htokens : ∀ n ∈ ns, n.IsToken)
    (hhead : ∀ n ∈ ns.head?, ¬n.isDelimited = true) (texts : List Text) :
    (fillTokens ns texts).head? ≠ some '\'' := by
  cases ns with
  | nil => simp [fillTokens]
  | cons n ns =>
      have hn := htokens n List.mem_cons_self
      have hplain := hhead n rfl
      have hmark : n.category ≠ .placeholderInject := fun hc =>
        hplain (isDelimited_iff.mpr (Or.inr hc))
      rw [fillTokens, if_neg hmark, hn.head?_append]
      intro hquote
      exact (hn.inert_of_isDelimited hplain '\'' (List.mem_of_head? hquote)).1 rfl

theorem Apart.tail (h : Apart (n :: ns)) : Apart ns :=
  List.IsChain.tail h

/-- After a string or a mark there is neither. -/
theorem Apart.head? (h : Apart (n :: ns)) (hn : n.isDelimited = true) :
    ∀ m ∈ ns.head?, ¬m.isDelimited = true := by
  cases ns with
  | nil => simp
  | cons k ns =>
      rintro m ⟨⟩ hm
      exact (List.isChain_cons_cons.mp h).1 ⟨hn, hm⟩

/-- Texts can be told from tokens that are apart and have them for marks. -/
theorem eq_of_fillTokens_eq {texts' : List Text} (htokens : ∀ n ∈ ns, n.IsToken)
    (hapart : Apart ns) (hlength : texts.length = (marks ns).length)
    (hlength' : texts'.length = (marks ns).length)
    (h : fillTokens ns (texts.map Text.quoted) = fillTokens ns (texts'.map Text.quoted)) :
    texts = texts' := by
  induction ns generalizing texts texts' with
  | nil =>
      rw [List.length_eq_zero_iff.mp hlength, List.length_eq_zero_iff.mp hlength']
  | cons n ns ih =>
      have hns : ∀ m ∈ ns, m.IsToken := fun m hm => htokens m (List.mem_cons_of_mem n hm)
      by_cases hc : n.category = .placeholderInject
      · rw [marks_cons_of_eq hc, List.length_cons] at hlength hlength'
        obtain ⟨s, texts, rfl⟩ := List.exists_cons_of_length_eq_add_one hlength
        obtain ⟨s', texts', rfl⟩ := List.exists_cons_of_length_eq_add_one hlength'
        have hhead := hapart.head? (isDelimited_iff.mpr (Or.inr hc))
        rw [fillTokens, fillTokens, if_pos hc, if_pos hc] at h
        obtain ⟨rfl, hrest⟩ := Grammar.quoted_append_inj (head?_fillTokens hns hhead _)
          (head?_fillTokens hns hhead _) h
        rw [ih hns hapart.tail (Nat.succ.inj hlength) (Nat.succ.inj hlength') hrest]
      · rw [marks_cons_of_ne hc] at hlength hlength'
        rw [fillTokens, fillTokens, if_neg hc, if_neg hc] at h
        exact ih hns hapart.tail hlength hlength' (List.append_cancel_left h)

end Node

namespace Exchange

open Node

variable {ns : List Node} {t u : Text} {texts : List Text}

/-- Whitespace in front of tokens still ends where it did. -/
theorem isRun_fillTokens {w : Text} (hw : Text.IsRun Text.isLayout w t)
    (htiles : Tiles t ns []) (htokens : ∀ n ∈ ns, n.IsToken)
    (hlength : (marks ns).length ≤ texts.length) :
    Text.IsRun Text.isLayout w (fillTokens ns (texts.map Text.quoted)) := by
  refine ⟨hw.1, hw.2.1, ?_⟩
  cases ns with
  | nil => simp [fillTokens]
  | cons n ns =>
      have hn := htokens n List.mem_cons_self
      by_cases hc : n.category = .placeholderInject
      · rw [marks_cons_of_eq hc, List.length_cons] at hlength
        obtain ⟨s, texts, rfl⟩ := List.exists_cons_of_length_pos (by omega : 0 < texts.length)
        rw [fillTokens, if_pos hc]
        rintro c ⟨⟩
        rfl
      · rw [fillTokens, if_neg hc, hn.head?_append, ← hn.head?_append n.following, htiles.1]
        exact hw.2.2

/-- A source whose marks are apart and the source with strings for its marks are the
same up to an exchange. -/
theorem texts_fillTokens (htiles : Tiles t ns []) (htokens : ∀ n ∈ ns, n.IsToken)
    (hapart : Apart ns) (hlength : (marks ns).length ≤ texts.length) :
    filling.Texts t (fillTokens ns (texts.map Text.quoted)) := by
  induction ns generalizing t texts with
  | nil =>
      rw [show t = [] from htiles]
      exact .nil
  | cons n ns ih =>
      obtain ⟨rfl, hcover⟩ := htiles
      have hns : ∀ m ∈ ns, m.IsToken := fun m hm => htokens m (List.mem_cons_of_mem n hm)
      have hn := htokens n List.mem_cons_self
      by_cases hc : n.category = .placeholderInject
      · rw [marks_cons_of_eq hc, List.length_cons] at hlength
        obtain ⟨s, texts, rfl⟩ := List.exists_cons_of_length_pos (by omega : 0 < texts.length)
        have hhead := hapart.head? (isDelimited_iff.mpr (Or.inr hc))
        rw [fillTokens, if_pos hc, hn.eq_mark hc]
        exact .piece (.filled (head?_fillTokens hns hhead _) rfl)
          (ih hcover hns hapart.tail (Nat.le_of_succ_le_succ hlength))
      · rw [marks_cons_of_ne hc] at hlength
        have hrest := ih hcover hns hapart.tail hlength
        rw [fillTokens, if_neg hc]
        cases hn with
        | string s hstring hs hend =>
            have hhead := hapart.head? (isDelimited_iff.mpr (Or.inl hstring))
            rw [hs]
            exact .piece (.string hend (head?_fillTokens hns hhead _) rfl) hrest
        | mark hmark hleaf hs => exact absurd hmark hc
        | layout hlayout hleaf hrun =>
            exact .piece (.layout hrun (isRun_fillTokens hrun hcover hns hlength) rfl) hrest
        | name body hname hleaf hbody halnum hs =>
            rw [hs]
            exact .piece (.name hbody halnum) hrest
        | plain hstring hmark hleaf hne hplain => exact hrest.plains hplain

end Exchange

end QueryTree
