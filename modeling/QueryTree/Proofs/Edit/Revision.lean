import QueryTree.Proofs.Edit.Binding
import QueryTree.Proofs.Tree.Paths

/-!
# Revised trees

What edits can do to a tree, whichever they are: they leave the shape of the tree and
its source texts alone, they write over nodes that were open, and they turn some of those
into literals. A node that has been overwritten stays as it is, with everything below it.
Revisions compose, so what one edit respects a whole session respects.
-/

namespace QueryTree.Node

/-- What no edit changes of a node: the source text that it covers and the one after it,
its links, and the number of its children. -/
structure SamePlace (n m : Node) : Prop where
  spelling : m.spelling = n.spelling
  following : m.following = n.following
  prev : m.prev = n.prev
  next : m.next = n.next
  length : m.children.length = n.children.length

/-- What may become of a node. It is turned into a literal if `literal` holds, and keeps
its category otherwise. -/
structure RevisedTo (literal : Prop) (n m : Node) : Prop where
  samePlace : SamePlace n m
  turned : literal → m.category = .literal ∧ m.isOverwritten = true
  kept : ¬literal → m.category = n.category
  final : n.isOverwritten = true → m = n

/-- Whether a tree is another one with texts written over some of its open nodes. The
nodes that become literals are those at the paths in `literals`. -/
def Revises (literals : Path → Prop) : Node → Node → Prop :=
  Pathwise fun path => RevisedTo (literals path)

variable {n m k : Node} {ns ms : List Node} {literals more : Path → Prop} {c : Category}

theorem SamePlace.refl (n : Node) : SamePlace n n :=
  ⟨rfl, rfl, rfl, rfl, rfl⟩

theorem SamePlace.trans (h : SamePlace n m) (h' : SamePlace m k) : SamePlace n k where
  spelling := h'.spelling.trans h.spelling
  following := h'.following.trans h.following
  prev := h'.prev.trans h.prev
  next := h'.next.trans h.next
  length := h'.length.trans h.length

theorem RevisedTo.refl (n : Node) {literal : Prop} (h : ¬literal) : RevisedTo literal n n :=
  ⟨.refl n, fun hl => absurd hl h, fun _ => rfl, fun _ => rfl⟩

/-- A node that has become a literal is not revised any more, so it stays a literal. -/
theorem RevisedTo.trans {p q : Prop} (h : RevisedTo p n m) (h' : RevisedTo q m k) :
    RevisedTo (p ∨ q) n k where
  samePlace := h.samePlace.trans h'.samePlace
  turned := by
    rintro (hp | hq)
    · obtain ⟨hliteral, hover⟩ := h.turned hp
      rw [h'.final hover]
      exact ⟨hliteral, hover⟩
    · exact h'.turned hq
  kept := by
    intro hpq
    rw [not_or] at hpq
    exact (h'.kept hpq.2).trans (h.kept hpq.1)
  final := by
    intro hn
    have hm := h.final hn
    rw [h'.final (hm ▸ hn), hm]

theorem RevisedTo.congr {p q : Prop} (h : RevisedTo p n m) (hpq : p ↔ q) :
    RevisedTo q n m :=
  propext hpq ▸ h

theorem revisedTo_overwrite (text : Text) (hopen : n.isOverwritten = false) :
    RevisedTo False n (n.overwrite text) :=
  ⟨⟨rfl, rfl, rfl, rfl, rfl⟩, nofun, fun _ => rfl, fun h => by rw [hopen] at h; cases h⟩

theorem revisedTo_overwriteWithLiteral (value : Value) (hopen : n.isOverwritten = false) :
    RevisedTo True n (n.overwriteWithLiteral value) :=
  ⟨⟨rfl, rfl, rfl, rfl, rfl⟩, fun _ => ⟨rfl, rfl⟩, fun h => absurd trivial h,
    fun h => by rw [hopen] at h; cases h⟩

theorem RevisedTo.isOverwritten (h : RevisedTo literal n m) (hm : m.isOverwritten = false) :
    n.isOverwritten = false := by
  by_contra hn
  have hn : n.isOverwritten = true := by simpa using hn
  rw [h.final hn, hn] at hm
  cases hm

namespace Revises

theorem refl (n : Node) (h : ∀ path, ¬literals path) : Revises literals n n := by
  intro path
  cases n.at? path with
  | none => exact .none
  | some k => exact .some (.refl k (h path))

theorem trans (h : Revises literals n m) (h' : Revises more m k) :
    Revises (fun path => literals path ∨ more path) n k := by
  intro path
  have hfirst := h path
  have hsecond := h' path
  generalize n.at? path = x at hfirst ⊢
  generalize m.at? path = y at hfirst hsecond
  generalize k.at? path = z at hsecond ⊢
  cases hfirst with
  | none =>
      cases hsecond with
      | none => exact .none
  | some hfirst =>
      cases hsecond with
      | some hsecond => exact .some (hfirst.trans hsecond)

theorem congr (h : Revises literals n m) (hmore : ∀ path, literals path ↔ more path) :
    Revises more n m := by
  have hsame : literals = more := funext fun path => propext (hmore path)
  exact hsame ▸ h

theorem self (h : Revises literals n m) : RevisedTo (literals []) n m :=
  Pathwise.self h

theorem samePlace (h : Revises literals n m) : Pathwise (fun _ => SamePlace) n m :=
  Pathwise.mono h fun _ _ _ hk => hk.samePlace

/-- A tree is revised if its root and its children are. -/
theorem of_children (hroot : RevisedTo (literals []) n m)
    (hchildren : ∀ i, Option.Rel (Revises fun path => literals (i :: path))
      n.children[i]? m.children[i]?) : Revises literals n m :=
  Pathwise.of_children hroot hchildren

/-- A tree is revised without a new literal if its root and its children are. -/
theorem of_forall₂ (hroot : RevisedTo False n m)
    (hchildren : List.Forall₂ (Revises fun _ => False) n.children m.children) :
    Revises (fun _ => False) n m :=
  Pathwise.of_forall₂ hroot hchildren

theorem children (h : Revises literals n m) :
    List.Forall₂ (fun k k' => ∃ literals, Revises literals k k') n.children m.children := by
  refine List.forall₂_iff_get.mpr ⟨h.self.samePlace.length.symm, fun i hi hi' => ?_⟩
  have hchild := Pathwise.child (i := i) h
  rw [List.getElem?_eq_getElem hi, List.getElem?_eq_getElem hi'] at hchild
  cases hchild with
  | some hchild => exact ⟨_, hchild⟩

end Revises

section Invariants

theorem Tiles.of_forall₂ {t rest : Text} (h : Tiles t ns rest)
    (hsame : List.Forall₂ (fun k k' => k'.spelling = k.spelling ∧ k'.following = k.following)
      ns ms) : Tiles t ms rest := by
  induction hsame generalizing t with
  | nil => exact h
  | cons hk _ ih =>
      obtain ⟨hcover, htail⟩ := h
      refine ⟨?_, ?_⟩
      · rw [hk.1, hk.2, hcover]
      · rw [hk.2]
        exact ih htail

/-- A revised tree covers the source as it did. -/
theorem Everywhere.tiled_of_revises (hn : n.Everywhere Tiled) (h : Revises literals n m) :
    m.Everywhere Tiled := by
  induction n using induction_children generalizing m literals with
  | step n ih =>
      have hchildren := h.children
      refine everywhere_iff.mpr ⟨fun hm => ?_, fun k' hk' => ?_⟩
      · have hne : n.children ≠ [] := by
          intro hnil
          rw [hnil] at hchildren
          exact hm (List.forall₂_nil_left_iff.mp hchildren)
        rw [h.self.samePlace.spelling, h.self.samePlace.following]
        exact (hn.self hne).of_forall₂ (hchildren.imp fun _ _ ⟨_, hk⟩ =>
          ⟨hk.self.samePlace.spelling, hk.self.samePlace.following⟩)
      · obtain ⟨i, hi, rfl⟩ := List.mem_iff_getElem.mp hk'
        have hi' : i < n.children.length := h.self.samePlace.length ▸ hi
        obtain ⟨_, hk⟩ := (List.forall₂_iff_get.mp hchildren).2 i hi' hi
        exact ih _ (List.getElem_mem hi') (hn.child (List.getElem_mem hi')) hk

/-- Placeholders still have no children, for no node becomes a placeholder. -/
theorem AtomicMarks.of_revises (hn : n.AtomicMarks) (h : Revises literals n m) :
    m.AtomicMarks := by
  intro k' hk' hmark
  obtain ⟨k, hmem, path, hk⟩ := Pathwise.exists_of_mem h hk'
  have hliteral : ¬literals path := by
    intro hl
    rw [(hk.turned hl).1] at hmark
    cases hmark
  have hleaf : k.children = [] := hn k hmem ((hk.kept hliteral).symm.trans hmark)
  have hlength := hk.samePlace.length
  rw [hleaf] at hlength
  exact List.length_eq_zero_iff.mp hlength

/-- Open nodes whose numbers do not grow tree by tree do not grow in number. -/
theorem countOpenAll_mono
    (h : List.Forall₂ (fun k k' => countOpen c k' ≤ countOpen c k) ns ms) :
    countOpenAll c ms ≤ countOpenAll c ns := by
  induction h with
  | nil => exact Nat.le_refl _
  | cons hk _ ih => exact Nat.add_le_add hk ih

theorem RevisedTo.category_of_open {literal : Prop} (h : RevisedTo literal n m)
    (hm : m.isOverwritten = false) : m.category = n.category := by
  apply h.kept
  intro hl
  rw [(h.turned hl).2] at hm
  cases hm

/-- A revision opens nothing. -/
theorem Revises.countOpen_le (h : Revises literals n m) (c : Category) :
    m.countOpen c ≤ n.countOpen c := by
  induction n using induction_children generalizing m literals with
  | step n ih =>
      cases hm : m.isOverwritten with
      | true =>
          rw [countOpen_of_overwritten hm]
          exact Nat.zero_le _
      | false =>
          have hchildren : List.Forall₂ (fun k k' => countOpen c k' ≤ countOpen c k)
              n.children m.children := by
            refine List.forall₂_iff_get.mpr ⟨h.self.samePlace.length.symm, fun i hi hi' => ?_⟩
            obtain ⟨_, hk⟩ := (List.forall₂_iff_get.mp h.children).2 i hi hi'
            exact ih _ (List.getElem_mem hi) hk
          rw [countOpen_of_open hm, countOpen_of_open (h.self.isOverwritten hm),
            h.self.category_of_open hm]
          exact Nat.add_le_add_left (countOpenAll_mono hchildren) _

end Invariants

end QueryTree.Node
