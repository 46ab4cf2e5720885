import QueryTree.Proofs.Correspondence.Grammar
import QueryTree.Proofs.Keywords.HexLetters
import QueryTree.Proofs.Marks.Token
import QueryTree.Proofs.Nesting.Levels

/-!
# Blobs do not split clause words

A blob that begins where a clause word does could take up the first letters of the word and
leave the rest to what is read next. In a command this does not happen, for a clause word
ends the items. Elsewhere a selector is read without a look at the keywords, but then only
whitespace, punctuation or another keyword may follow it, and none of them is what is left of
a clause word.
-/

namespace QueryTree

open Recognizer Grammar

/-- Whether a text begins with a clause word that ends the items of a command, as a whole word.
These are all but `WHERE`, where no blob begins. -/
def BeginsClause (t : Text) : Prop :=
  isClauseWord (t.takeWhile Char.isAlphanum) = true ∧
    Text.upper (t.takeWhile Char.isAlphanum) ≠ Keyword.WHERE.spelling

/-- Whether a text begins with no word, or with a word of the vocabulary. -/
def BeginsAfresh (t : Text) : Prop :=
  EndsWord t ∨ isReservedWord (t.takeWhile Char.isAlphanum) = true

/-- Every text. -/
def Anywhere (_ : Text) : Prop :=
  True

/-- Whether a blob in front of a text covers all of a clause word that it begins with, where no
hyphen follows the word. -/
def SparesWords (v following : Text) : Prop :=
  ∀ w rest, v ++ following = w ++ rest → Text.IsRun Char.isAlphanum w rest →
    rest.head? ≠ some '-' → isClauseWord w = true → v = w

/-- Whether all blobs of a tree have a property, told from what they spell and the texts after
them. -/
def Node.BlobsAll (Q : Text → Text → Prop) (n : Node) : Prop :=
  n.Everywhere fun m => m.category = .hexBlob → Q m.spelling m.following

section Nodes

variable {n : Node} {w t rest : Text} {Q : Text → Text → Prop}

theorem isHexDigit_of_isBlobChar {x : Char} (h : isBlobChar x = true) (hx : x.isAlphanum = true) :
    Text.isHexDigit x = true := by
  unfold isBlobChar at h
  rcases Bool.or_eq_true_iff.mp h with hhex | hhyphen
  · exact hhex
  · rw [beq_iff_eq.mp hhyphen] at hx
    cases hx

/-- A clause word where a blob begins is not `WHERE`. -/
theorem Node.Formed.beginsClause (h : n.Formed) (hc : n.category = .hexBlob)
    (hcover : n.spelling ++ n.following = w ++ rest) (hrun : Text.IsRun Char.isAlphanum w rest)
    (hclause : isClauseWord w = true) : BeginsClause (n.spelling ++ n.following) := by
  have hspells := h.spells
  rw [hc] at hspells
  obtain ⟨hblob, hfirst⟩ := hspells
  rw [BeginsClause, hcover, hrun.takeWhile_append]
  refine ⟨hclause, fun hwhere => ?_⟩
  obtain ⟨x, v, hx, _⟩ := hblob.exists_cons
  obtain ⟨y, u, rfl, _⟩ := hrun.exists_cons
  rw [hx] at hcover
  obtain ⟨rfl, _⟩ := List.cons.inj hcover
  have hhex := hfirst x (by rw [hx]; rfl)
  rw [← Text.caseBlind_isHexDigit x, (List.cons.inj hwhere).1] at hhex
  exact absurd hhex (by decide)

/-- A blob spares a clause word if no clause word begins there, or if no word goes on behind
the blob. -/
theorem Node.Formed.sparesWords (h : n.Formed) (hc : n.category = .hexBlob)
    (hfree : ¬BeginsClause (n.spelling ++ n.following) ∨ BeginsAfresh n.following) :
    SparesWords n.spelling n.following := by
  intro w rest hcover hrun hhyphen hclause
  have hafresh : BeginsAfresh n.following :=
    hfree.resolve_left (not_not_intro (h.beginsClause hc hcover hrun hclause))
  have hspells := h.spells
  rw [hc] at hspells
  obtain ⟨hblob, _⟩ := hspells
  rcases List.append_eq_append_iff.mp hcover with ⟨v, rfl, hv⟩ | ⟨v, hv, rfl⟩
  · cases v with
    | nil => exact (List.append_nil _).symm
    | cons x v =>
        have hrest : Text.IsRun Char.isAlphanum (x :: v) rest :=
          ⟨List.cons_ne_nil x v, fun y hy => hrun.2.1 y (List.mem_append_right _ hy), hrun.2.2⟩
        exfalso
        rcases hafresh with hends | hreserved
        · have hx := hends x (by rw [hv]; rfl)
          rw [hrest.2.1 x List.mem_cons_self] at hx
          cases hx
        · rw [hv, hrest.takeWhile_append, not_isReservedWord_of_isHexDigit hclause h.nonempty
            fun y hy => isHexDigit_of_isBlobChar (hblob.2.1 y hy)
              (hrun.2.1 y (List.mem_append_left _ hy))] at hreserved
          cases hreserved
  · cases v with
    | nil => rw [hv, List.append_nil]
    | cons x v =>
        have hx := hblob.2.1 x (by rw [hv]; simp)
        have halnum := hrun.2.2 x rfl
        rcases Bool.or_eq_true_iff.mp hx with hhex | hxy
        · rw [isAlphanum_of_isHexDigit hhex] at halnum
          cases halnum
        · exact absurd (congrArg some (beq_iff_eq.mp hxy)) hhyphen

/-- The categories of nodes that are no blobs and have none below them. -/
def Category.isBlobless : Category → Bool
  | .hexBlob | .literal | .selectorItem | .mapEntry | .arrayLiteral | .mapLiteral
  | .conditionItem | .conditionChain | .condition | .command | .statement => false
  | _ => true

theorem Node.Everywhere.blobsAll (h : n.Everywhere Formed)
    (hc : n.category.isBlobless = true) : n.BlobsAll Q := by
  have hparts : ∀ c : Category, c.isBlobless = true →
      ∀ d ∈ c.partCategories, d.isBlobless = true := by
    intro c
    cases c <;> decide
  refine (h.of_category (P := fun c => c.isBlobless = true) hc hparts).mono fun m hm hblob => ?_
  rw [hblob] at hm
  cases hm

/-- The blobs of a node that is none itself are those of its parts. -/
theorem Node.blobsAll_branch {c : Category} {ns : List Node} (h : ∀ m ∈ ns, m.BlobsAll Q)
    (hc : c ≠ .hexBlob) : (Node.branch c (Node.chain ns) rest).BlobsAll Q := by
  refine Node.everywhere_iff.mpr ⟨fun hblob => absurd hblob hc, fun k hk => ?_⟩
  obtain ⟨m, hm, p, q, rfl⟩ := Node.mem_chain hk
  exact (h m hm).linked p q id

end Nodes

namespace Recognizer

variable {p q s : Text → Prop} {C Q : Text → Text → Prop} {r r' : Recognizer Node}
variable {u v : Recognizer (List Node)}

/-- Whether all blobs that a recognizer finds have a property, where the text that is read and
the text after it satisfy a condition. -/
def ReadsBlobs (C Q : Text → Text → Prop) (r : Recognizer Node) : Prop :=
  ∀ t n rest, r t = .found n rest → C t rest → n.BlobsAll Q

/-- Whether all blobs that a recognizer finds spare clause words, if the text after them has
the property `q`. Then the text that is read has the property `p`. -/
def Minds (p q : Text → Prop) (r : Recognizer Node) : Prop :=
  ∀ t n rest, r t = .found n rest → q rest → p t ∧ n.BlobsAll SparesWords

/-- As `Minds`, for recognizers of several parts. -/
def MindsAll (p q : Text → Prop) (u : Recognizer (List Node)) : Prop :=
  ∀ t ns rest, u t = .found ns rest → q rest → p t ∧ ∀ n ∈ ns, n.BlobsAll SparesWords

section Alone

theorem ReadsBlobs.orElse (hr : r.ReadsBlobs C Q) (hr' : r'.ReadsBlobs C Q) :
    (r.orElse r').ReadsBlobs C Q := by
  intro t n rest h
  rcases orElse_eq_found.mp h with h | ⟨_, h⟩
  · exact hr t n rest h
  · exact hr' t n rest h

theorem ReadsBlobs.wrap {c : Category} (h : r.ReadsBlobs C Q) (hc : c ≠ .hexBlob) :
    (Recognizer.wrap c r).ReadsBlobs C Q := by
  intro t n rest hn hC
  obtain ⟨ns, hns, rfl⟩ := node_eq_found.mp hn
  obtain ⟨m, hm, rfl⟩ := Reading.map_eq_found.mp hns
  exact Node.blobsAll_branch (List.forall_mem_singleton.mpr (h t m rest hm hC)) hc

theorem ReadsBlobs.of_isBlobless {l : Language Label} (h : r.Finds l)
    (hl : Phrase.Over (·.isBlobless = true) l) : r.ReadsBlobs C Q := by
  intro t n rest hn _
  have hderives := h t n rest hn
  exact (hderives.formed n List.mem_cons_self).blobsAll
    (hl _ hderives.labels n.label List.mem_cons_self)

theorem ReadsBlobs.node {l : Language Label} {c : Category} (h : u.Yields l)
    (hl : Phrase.Over (·.isBlobless = true) l) (hc : c ≠ .hexBlob) :
    (Recognizer.node c u).ReadsBlobs C Q := by
  intro t n rest hn _
  obtain ⟨ns, hns, rfl⟩ := node_eq_found.mp hn
  have hderives := h t ns rest hns
  exact Node.blobsAll_branch (fun m hm => (hderives.formed m hm).blobsAll
    (hl _ hderives.labels m.label (List.mem_map_of_mem hm))) hc

theorem ReadsBlobs.of_hexBlob (h : r.Finds (Phrase.part .hexBlob))
    (hQ : ∀ n : Node, n.Formed → n.category = .hexBlob →
      C (n.spelling ++ n.following) n.following → Q n.spelling n.following) :
    r.ReadsBlobs C Q := by
  intro t n rest hn hC
  have hderives := h t n rest hn
  have hformed := hderives.formed n List.mem_cons_self
  have hc : n.category = .hexBlob := Phrase.label_mem_part.mp hderives.labels
  obtain ⟨hcover, rfl⟩ := Node.tiles_singleton.mp hderives.tiles
  rw [← hcover] at hC
  refine Node.everywhere_iff.mpr ⟨fun hblob => hQ n hformed.self hblob hC, fun m hm => ?_⟩
  rw [hformed.self.children_eq_nil (by rw [hc]; rfl)] at hm
  cases hm

end Alone

section Parts

theorem Minds.weaken {p' q' : Text → Prop} (h : r.Minds p q) (hp : ∀ t, p t → p' t)
    (hq : ∀ t, q' t → q t) : r.Minds p' q' := by
  intro t n rest hr hq'
  obtain ⟨ht, hn⟩ := h t n rest hr (hq rest hq')
  exact ⟨hp t ht, hn⟩

theorem MindsAll.weaken {p' q' : Text → Prop} (h : u.MindsAll p q) (hp : ∀ t, p t → p' t)
    (hq : ∀ t, q' t → q t) : u.MindsAll p' q' := by
  intro t ns rest hu hq'
  obtain ⟨ht, hns⟩ := h t ns rest hu (hq rest hq')
  exact ⟨hp t ht, hns⟩

theorem Minds.one (h : r.Minds p q) : r.one.MindsAll p q := by
  intro t ns rest hr hq
  obtain ⟨n, hn, rfl⟩ := Reading.map_eq_found.mp hr
  obtain ⟨hp, hspares⟩ := h t n rest hn hq
  exact ⟨hp, List.forall_mem_singleton.mpr hspares⟩

theorem Minds.orElse (hr : r.Minds p q) (hr' : r'.Minds p q) : (r.orElse r').Minds p q := by
  intro t n rest h
  rcases orElse_eq_found.mp h with h | ⟨_, h⟩
  · exact hr t n rest h
  · exact hr' t n rest h

theorem Minds.orFault (h : r.Minds p q) (fault : Text → Fault) : (r.orFault fault).Minds p q := by
  intro t n rest hr
  rcases orElse_eq_found.mp hr with hr | ⟨_, hr⟩
  · exact h t n rest hr
  · simp at hr

theorem Minds.under (h : r.Minds p q) (demand : Demand) (c : Category) :
    (r.under demand c).Minds p q := by
  cases demand with
  | optional => exact h
  | mandatory => exact h.orFault _

theorem MindsAll.orElse (hu : u.MindsAll p q) (hv : v.MindsAll p q) :
    (u.orElse v).MindsAll p q := by
  intro t ns rest h
  rcases orElse_eq_found.mp h with h | ⟨_, h⟩
  · exact hu t ns rest h
  · exact hv t ns rest h

theorem MindsAll.under (h : u.MindsAll p q) (demand : Demand) (c : Category) :
    (u.under demand c).MindsAll p q := by
  cases demand with
  | optional => exact h
  | mandatory => exact h.orElse nofun

theorem MindsAll.seq (hu : u.MindsAll p q) (hv : v.MindsAll q s) : (u.seq v).MindsAll p s := by
  intro t ns rest h hs
  obtain ⟨as, middle, bs, ha, hb, rfl⟩ := seq_eq_found.mp h
  obtain ⟨hq, hbs⟩ := hv middle bs rest hb hs
  obtain ⟨hp, has⟩ := hu t as middle ha hq
  exact ⟨hp, List.forall_mem_append.mpr ⟨has, hbs⟩⟩

theorem Minds.andThen {parts : Node → Recognizer (List Node)} (hr : r.Minds p q)
    (hparts : ∀ n, (parts n).MindsAll q s) : (r.andThen parts).MindsAll p s := by
  intro t ns rest h hs
  obtain ⟨n, middle, bs, hn, hb, rfl⟩ := andThen_eq_found.mp h
  obtain ⟨hq, hbs⟩ := hparts n middle bs rest hb hs
  obtain ⟨hp, hspares⟩ := hr t n middle hn hq
  exact ⟨hp, List.forall_mem_cons.mpr ⟨hspares, hbs⟩⟩

/-- Where nothing is read, the text after it is the text before it. -/
theorem MindsAll.optional (h : u.MindsAll p q) (hpq : ∀ t, q t → p t) :
    (Recognizer.optional u).MindsAll p q := by
  intro t ns rest hu hq
  rcases orElse_eq_found.mp hu with hu | ⟨_, hu⟩
  · exact h t ns rest hu hq
  · obtain ⟨rfl, rfl⟩ := Reading.found.inj hu
    exact ⟨hpq t hq, List.forall_mem_nil _⟩

/-- A round ends where the next one begins. -/
theorem MindsAll.repeated {σ : Type} {step : σ → Recognizer (List Node)} {next : σ → Node → σ}
    (h : ∀ state, (step state).MindsAll p p) (state : σ) :
    (Recognizer.repeated step next state).MindsAll p p := by
  have hbound : ∀ bound state, (repeatUpTo step next bound state).MindsAll p p := by
    intro bound
    induction bound with
    | zero =>
        intro state t ns rest hr hp
        obtain ⟨rfl, rfl⟩ := Reading.found.inj hr
        exact ⟨hp, List.forall_mem_nil _⟩
    | succ bound ih =>
        intro state t ns rest hr hp
        unfold repeatUpTo at hr
        split at hr
        next as middle ha =>
          obtain ⟨bs, hb, rfl⟩ := Reading.map_eq_found.mp hr
          obtain ⟨hmiddle, hbs⟩ := ih _ middle bs rest hb hp
          obtain ⟨ht, has⟩ := h state t as middle ha hmiddle
          exact ⟨ht, List.forall_mem_append.mpr ⟨has, hbs⟩⟩
        next =>
          obtain ⟨rfl, rfl⟩ := Reading.found.inj hr
          exact ⟨hp, List.forall_mem_nil _⟩
        next => cases hr
  exact fun t => hbound t.length state t

theorem MindsAll.many (h : u.MindsAll p p) : u.many.MindsAll p p :=
  MindsAll.repeated (fun _ => h) ()

theorem MindsAll.node {c : Category} (h : u.MindsAll p q) (hc : c ≠ .hexBlob) :
    (Recognizer.node c u).Minds p q := by
  intro t n rest hn hq
  obtain ⟨ns, hns, rfl⟩ := node_eq_found.mp hn
  obtain ⟨hp, hspares⟩ := h t ns rest hns hq
  exact ⟨hp, Node.blobsAll_branch hspares hc⟩

theorem refused_minds {opening : Recognizer Node} : (refused opening).Minds p q := by
  intro t n rest h
  obtain ⟨_, _, _, h⟩ := Reading.bind_eq_found.mp h
  cases h

end Parts

end Recognizer

end QueryTree
