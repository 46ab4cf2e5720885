import QueryTree.Proofs.Edit.Outermost
import QueryTree.Proofs.Edit.Selection

/-!
# What the edits do

Each of the edits, if it succeeds, revises the tree and leaves fewer open nodes of the
category that it selects from. The nodes that it turns into literals are those that it
selected to be replaced.
-/

namespace QueryTree.Node

variable {σ : Type}
variable {n m : Node} {c : Category} {s s' : σ} {index : Nat} {path : Path}

theorem replace_eq_ok {value : Value} :
    n.replace c value index = .ok m ↔
      ∃ path, n.select c index = .ok path ∧
        m = n.modifyAt (overwriteWithLiteral value) path := by
  rw [replace]
  cases n.select c index with
  | error e => simp [Except.map]
  | ok path => simp [Except.map, eq_comm]

theorem replaceWith_eq_ok {mutator : Mutator σ} :
    n.replaceWith c index mutator s = .ok (m, s') ↔
      ∃ path, n.select c index = .ok path ∧
        m = n.modifyAt (overwrite (mutator s (((n.at? path).map text).getD [])).1) path ∧
        s' = (mutator s (((n.at? path).map text).getD [])).2 := by
  rw [replaceWith]
  cases n.select c index with
  | error e => simp [Bind.bind, Except.bind]
  | ok path => simp [Bind.bind, Except.bind, Pure.pure, Except.pure, eq_comm]

theorem replaceAll_eq_ok {mutator : Mutator σ} {count : Nat} :
    n.replaceAll c mutator s = .ok (m, count, s') ↔
      count ≠ 0 ∧ overwriteOutermost c mutator n s = (m, count, s') := by
  rw [replaceAll]
  generalize overwriteOutermost c mutator n s = answer
  obtain ⟨k, l, r⟩ := answer
  simp only
  split
  next h =>
    constructor
    · exact nofun
    · rintro ⟨hcount, hanswer⟩
      simp only [Prod.mk.injEq] at hanswer
      exact absurd (hanswer.2.1 ▸ h) hcount
  next h =>
    rw [Except.ok.injEq]
    constructor
    · intro hanswer
      simp only [Prod.mk.injEq] at hanswer
      exact ⟨hanswer.2.1 ▸ h, by simp [hanswer]⟩
    · exact fun hanswer => hanswer.2

/-- A node that is selected and overwritten is one open node of its category less. -/
theorem countOpen_modifyAt_lt {f : Node → Node} (hselect : n.select c index = .ok path)
    (hover : ∀ x, (f x).isOverwritten = true) :
    (n.modifyAt f path).countOpen c < n.countOpen c := by
  obtain ⟨x, hx, hc⟩ := exists_openAt_of_select hselect
  have hself : 0 < x.countOpen c := (OpenAt.here hx.isOverwritten).countOpen_pos hc
  have hclosed := hx.countOpen_modifyAt (c := c) (hover x)
  omega

theorem revises_of_replace {value : Value} (h : n.replace c value index = .ok m) :
    ∃ path, n.select c index = .ok path ∧ Revises (· = path) n m ∧
      m.countOpen c < n.countOpen c := by
  obtain ⟨path, hselect, rfl⟩ := replace_eq_ok.mp h
  obtain ⟨x, hx, _⟩ := exists_openAt_of_select hselect
  refine ⟨path, hselect, ?_, ?_⟩
  · have hrevised := hx.revises (revisedTo_overwriteWithLiteral value hx.isOverwritten) rfl
    exact hrevised.congr fun p => by simp
  · exact countOpen_modifyAt_lt hselect fun _ => rfl

theorem revises_of_replaceWith {mutator : Mutator σ}
    (h : n.replaceWith c index mutator s = .ok (m, s')) :
    Revises (fun _ => False) n m ∧ m.countOpen c < n.countOpen c := by
  obtain ⟨path, hselect, rfl, _⟩ := replaceWith_eq_ok.mp h
  obtain ⟨x, hx, _⟩ := exists_openAt_of_select hselect
  constructor
  · have hrevised := hx.revises (revisedTo_overwrite
      (mutator s (((n.at? path).map text).getD [])).1 hx.isOverwritten) rfl
    exact hrevised.congr fun p => by simp
  · exact countOpen_modifyAt_lt hselect fun _ => rfl

theorem revises_of_replaceAll {mutator : Mutator σ} {count : Nat}
    (h : n.replaceAll c mutator s = .ok (m, count, s')) :
    Revises (fun _ => False) n m ∧ m.countOpen c < n.countOpen c := by
  obtain ⟨hcount, hanswer⟩ := replaceAll_eq_ok.mp h
  have hrevises := overwriteOutermost_revises c mutator n s
  have hnone := countOpen_overwriteOutermost c mutator n s
  have hle := count_overwriteOutermost_le c mutator n s
  rw [hanswer] at hrevises hnone hle
  simp only at hrevises hnone hle
  exact ⟨hrevises, by omega⟩

/-- The paths that a binding selects, each in the tree that the values before have been
written to. -/
def boundPaths : List Value → Node → List Path
  | [], _ => []
  | value :: values, root =>
    match root.select .placeholderInject 0 with
    | .ok path => path :: boundPaths values (root.modifyAt (overwriteWithLiteral value) path)
    | .error _ => []

theorem revises_of_bindEach {values : List Value} (h : bindEach values n = .ok m) :
    Revises (· ∈ n.boundPaths values) n m := by
  induction values generalizing n with
  | nil =>
      obtain rfl := Except.ok.inj h
      exact .refl n fun _ => List.not_mem_nil
  | cons value values ih =>
      rw [bindEach] at h
      cases hreplace : n.replace .placeholderInject value 0 with
      | error e =>
          rw [hreplace] at h
          cases h
      | ok k =>
          rw [hreplace] at h
          obtain ⟨path, hselect, hfirst, _⟩ := revises_of_replace hreplace
          obtain ⟨path', hselect', rfl⟩ := replace_eq_ok.mp hreplace
          obtain rfl : path = path' := Except.ok.inj (hselect.symm.trans hselect')
          apply (hfirst.trans (ih h)).congr
          intro p
          rw [boundPaths, hselect, List.mem_cons]

theorem bindEach_of_bind {values : List Value} {count : Nat}
    (h : n.bind values = .ok (m, count)) : bindEach values n = .ok m := by
  simp only [bind] at h
  split at h
  next => cases h
  next =>
    split at h
    next => cases h
    next =>
      cases heach : bindEach values n with
      | error e =>
          rw [heach] at h
          cases h
      | ok k =>
          rw [heach] at h
          simp only [Except.map, Except.ok.injEq, Prod.mk.injEq] at h
          rw [h.1]

/-- Binding a value takes one open placeholder, and the values after it open none. -/
theorem countOpen_bindEach_lt {value : Value} {values : List Value}
    (h : bindEach (value :: values) n = .ok m) :
    m.countOpen .placeholderInject < n.countOpen .placeholderInject := by
  rw [bindEach] at h
  cases hreplace : n.replace .placeholderInject value 0 with
  | error e =>
      rw [hreplace] at h
      cases h
  | ok k =>
      rw [hreplace] at h
      obtain ⟨_, _, _, hlt⟩ := revises_of_replace hreplace
      exact Nat.lt_of_le_of_lt ((revises_of_bindEach h).countOpen_le _) hlt

end QueryTree.Node
