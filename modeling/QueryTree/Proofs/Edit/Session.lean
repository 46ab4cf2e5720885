import QueryTree.Proofs.Derivation.Statement
import QueryTree.Proofs.Edit.Outcome
import QueryTree.Proofs.Marks.Substitution

/-!
# Sessions

A session is any sequence of edits of the tree of a source, where an edit that fails
leaves the tree as it is. Two facts hold at every moment of every session. The text of a
node is the one that is read off its topmost replacements and its leaves. And a text is
written over a node only once: the shape of the tree stays, and what has been overwritten
does not change any more.
-/

namespace QueryTree

variable {σ : Type}

/-- One of the four edits with its arguments. What the mutators remember is handed on
from one edit to the next. -/
inductive Edit (σ : Type) where
  | replace (c : Category) (value : Value) (index : Nat)
  | replaceWith (c : Category) (index : Nat) (mutator : Node.Mutator σ)
  | replaceAll (c : Category) (mutator : Node.Mutator σ)
  | bind (values : List Value)

namespace Edit

/-- The category of which an edit selects nodes. Nothing is selected to bind no value. -/
def target : Edit σ → Option Category
  | replace c _ _ => some c
  | replaceWith c _ _ => some c
  | replaceAll c _ => some c
  | bind values => if values.isEmpty then none else some .placeholderInject

/-- The outcome of an edit. -/
def attempt : Edit σ → Node × σ → Except EditError (Node × σ)
  | replace c value index, (root, s) => (root.replace c value index).map fun n => (n, s)
  | replaceWith c index mutator, (root, s) => root.replaceWith c index mutator s
  | replaceAll c mutator, (root, s) =>
    (root.replaceAll c mutator s).map fun (n, _, s) => (n, s)
  | bind values, (root, s) => (root.bind values).map fun (n, _) => (n, s)

/-- The tree after an edit, which is the same as before if the edit fails. -/
def apply (e : Edit σ) (tree : Node × σ) : Node × σ :=
  match e.attempt tree with
  | .ok changed => changed
  | .error _ => tree

/-- The paths of the nodes that an edit selects and replaces by literals. -/
def literals : Edit σ → Node → List Path
  | replace c _ index, root =>
    match root.select c index with
    | .ok path => [path]
    | .error _ => []
  | bind values, root =>
    match root.bind values with
    | .ok _ => root.boundPaths values
    | .error _ => []
  | _, _ => []

end Edit

/-- Edits in the order in which they are made. -/
abbrev Session (σ : Type) := List (Edit σ)

namespace Session

/-- The tree after all edits of a session. -/
def run (session : Session σ) (tree : Node × σ) : Node × σ :=
  session.foldl (fun tree e => e.apply tree) tree

/-- The paths of all nodes that a session replaces by literals. -/
def literals : Session σ → Node × σ → List Path
  | [], _ => []
  | e :: session, tree => e.literals tree.1 ++ literals session (e.apply tree)

end Session

open Node

namespace Edit

variable {e : Edit σ} {n m : Node} {s s' : σ} {c : Category}

/-- What an edit that succeeds does to the tree. -/
theorem attempt_revises (h : e.attempt (n, s) = .ok (m, s')) :
    Revises (· ∈ e.literals n) n m ∧
      ∀ c, e.target = some c → m.countOpen c < n.countOpen c := by
  cases e with
  | replace c value index =>
      simp only [attempt] at h
      cases hreplace : n.replace c value index with
      | error e =>
          rw [hreplace] at h
          cases h
      | ok k =>
          rw [hreplace] at h
          cases h
          obtain ⟨path, hselect, hrevises, hlt⟩ := revises_of_replace hreplace
          constructor
          · apply hrevises.congr
            intro p
            rw [literals, hselect, List.mem_singleton]
          · rintro _ ⟨⟩
            exact hlt
  | replaceWith c index mutator =>
      obtain ⟨hrevises, hlt⟩ := revises_of_replaceWith h
      constructor
      · exact hrevises.congr fun p => by simp [literals]
      · rintro _ ⟨⟩
        exact hlt
  | replaceAll c mutator =>
      simp only [attempt] at h
      cases hreplace : n.replaceAll c mutator s with
      | error e =>
          rw [hreplace] at h
          cases h
      | ok answer =>
          rw [hreplace] at h
          cases h
          obtain ⟨hrevises, hlt⟩ := revises_of_replaceAll hreplace
          constructor
          · exact hrevises.congr fun p => by simp [literals]
          · rintro _ ⟨⟩
            exact hlt
  | bind values =>
      simp only [attempt] at h
      cases hbind : n.bind values with
      | error e =>
          rw [hbind] at h
          cases h
      | ok answer =>
          rw [hbind] at h
          cases h
          have heach := bindEach_of_bind hbind
          constructor
          · apply (revises_of_bindEach heach).congr
            intro p
            rw [literals, hbind]
          · intro c hc
            cases values with
            | nil => cases hc
            | cons value values =>
                cases hc
                exact countOpen_bindEach_lt heach

/-- An edit that fails replaces nothing. -/
theorem literals_of_error {error : EditError} (h : e.attempt (n, s) = .error error) :
    e.literals n = [] := by
  cases e with
  | replace c value index =>
      simp only [attempt, Node.replace] at h
      rw [literals]
      cases hselect : n.select c index with
      | error e => rfl
      | ok path =>
          rw [hselect] at h
          cases h
  | replaceWith c index mutator => rfl
  | replaceAll c mutator => rfl
  | bind values =>
      simp only [attempt] at h
      rw [literals]
      cases hbind : n.bind values with
      | error e => rfl
      | ok answer =>
          rw [hbind] at h
          cases h

/-- An edit revises the tree, whether it succeeds or not. -/
theorem apply_revises (e : Edit σ) (tree : Node × σ) :
    Revises (· ∈ e.literals tree.1) tree.1 (e.apply tree).1 := by
  obtain ⟨n, s⟩ := tree
  rw [apply]
  cases hattempt : e.attempt (n, s) with
  | error error =>
      rw [literals_of_error hattempt]
      exact .refl n fun _ => List.not_mem_nil
  | ok changed => exact (attempt_revises hattempt).1

end Edit

namespace Session

variable {depth : Nat} {q : Text} {root : Node}

theorem run_append (before after : Session σ) (tree : Node × σ) :
    run (before ++ after) tree = run after (run before tree) :=
  List.foldl_append

/-- A session revises the tree as its edits do. -/
theorem run_revises (session : Session σ) (tree : Node × σ) :
    Revises (· ∈ session.literals tree) tree.1 (session.run tree).1 := by
  induction session generalizing tree with
  | nil => exact .refl tree.1 fun _ => List.not_mem_nil
  | cons e session ih =>
      apply ((e.apply_revises tree).trans (ih (e.apply tree))).congr
      intro path
      rw [literals, List.mem_append]

/-- After every session the tree covers the source as it was parsed. -/
theorem run_tiled (h : parse depth q = .ok root) (session : Session σ) (s : σ) :
    (session.run (root, s)).1.Everywhere Tiled :=
  ((formed_of_parse h).mono fun _ hm => hm.tiled).tiled_of_revises
    (session.run_revises (root, s))

/-- After every session a binding fails before it has written anything, or it writes all
of its values. -/
theorem bind_run (h : parse depth q = .ok root) (session : Session σ) (s : σ)
    (values : List Value) (bound : Node) (count : Nat) :
    (session.run (root, s)).1.bind values = .ok (bound, count) ↔
      values.length = (session.run (root, s)).1.countOpen .placeholderInject ∧
        bound = fillOpen values (session.run (root, s)).1 ∧ count = values.length :=
  bind_eq_ok ((formed_of_parse h).atomicMarks.of_revises (session.run_revises (root, s)))

/-- The text of a node is always read off the tree. After every session, the text of
every node is what was written over it, or else the source text of a leaf, or else the
texts of the children from left to right. A node below which nothing was written reads as
it was spelled. -/
theorem text_is_fold (h : parse depth q = .ok root) (session : Session σ) (s : σ) :
    ∀ n ∈ (session.run (root, s)).1.preorder,
      (∀ text, n.replacement = some text → n.text = text) ∧
        (n.replacement = none → n.children = [] → n.text = n.spelling) ∧
        (n.replacement = none → n.children ≠ [] → n.text = (n.children.map text).flatten) ∧
        n.text = n.fold ∧ (n.holdsReplacement = false → n.spelling = n.fold) := by
  intro n hn
  have htiled : n.Everywhere Tiled := (run_tiled h session s).of_mem hn
  have htext : n.text = n.fold := text_eq_fold htiled
  have hchildren : n.children.map text = n.children.map fold :=
    List.map_congr_left fun m hm => text_eq_fold (htiled.child hm)
  refine ⟨?_, ?_, ?_, htext, ?_⟩
  · intro text hreplacement
    rw [htext, fold_of_replacement hreplacement]
  · intro hreplacement hleaf
    rw [htext, fold_of_isLeaf hreplacement hleaf]
  · intro hreplacement hinner
    rw [htext, fold_of_children hreplacement hinner, hchildren]
  · intro hunwritten
    exact (fold_eq_spelling htiled (holdsReplacement_eq_false_iff.mp hunwritten)).symm

theorem text_is_fold_nested :
    ∃ root, parse 2 "SELECT a FROM t WHERE b = ?".toList = .ok root ∧
      ∀ n ∈ (run [.bind [.text "x".toList],
          .replaceWith .condition 0 fun (k : Nat) text => (text ++ [' '], k + 1),
          .replaceAll .command fun k text => (text.reverse, k)] (root, 0)).1.preorder,
        n.text = n.fold := by
  obtain ⟨root, hroot⟩ := exists_tree_of_isOk 2 "SELECT a FROM t WHERE b = ?".toList
    (by decide +kernel)
  exact ⟨root, hroot, fun n hn => (text_is_fold hroot _ 0 n hn).2.2.2.1⟩

/-- A text is written over a node only once. After every session the nodes are where
they were at its start, with the same links and as many children. The nodes that were
replaced by literals are overwritten literals, and all others have the category that they
had. Further edits leave an overwritten node as it is, with everything below it, and open
no node. An edit that succeeds leaves fewer open nodes of its category. -/
theorem written_once (root : Node) (before after : Session σ) (s : σ) :
    (∀ path, Option.Rel SamePlace (root.at? path) ((before.run (root, s)).1.at? path)) ∧
      (∀ path n m, root.at? path = some n → (before.run (root, s)).1.at? path = some m →
        (path ∈ before.literals (root, s) →
          m.category = .literal ∧ m.isOverwritten = true) ∧
        (path ∉ before.literals (root, s) → m.category = n.category)) ∧
      (∀ path n, (before.run (root, s)).1.at? path = some n → n.isOverwritten = true →
        ((before ++ after).run (root, s)).1.at? path = some n) ∧
      (∀ c, ((before ++ after).run (root, s)).1.countOpen c ≤
        (before.run (root, s)).1.countOpen c) ∧
      ∀ (e : Edit σ) (changed : Node × σ) (c : Category),
        e.attempt (before.run (root, s)) = .ok changed → e.target = some c →
          changed.1.countOpen c < (before.run (root, s)).1.countOpen c := by
  have hbefore := run_revises before (root, s)
  have hafter := run_revises after (before.run (root, s))
  rw [← run_append] at hafter
  refine ⟨hbefore.samePlace, ?_, ?_, hafter.countOpen_le, ?_⟩
  · intro path n m hn hm
    obtain ⟨m', hm', hrevised⟩ := hbefore.at? hn
    obtain rfl : m = m' := Option.some.inj (hm.symm.trans hm')
    exact ⟨hrevised.turned, hrevised.kept⟩
  · intro path n hn hover
    obtain ⟨n', hn', hrevised⟩ := hafter.at? hn
    rw [hn', hrevised.final hover]
  · intro e changed c hattempt hc
    exact (Edit.attempt_revises hattempt).2 c hc

theorem written_once_nested :
    ∃ root, parse 2 "SELECT ? FROM t".toList = .ok root ∧
      ((Session.run [.bind [.integer 7]] (root, ())).1.countOpen .command ≤
        root.countOpen .command) ∧
      ∀ changed, Edit.attempt (.replaceWith .command 1 fun _ text => (text.reverse, ()))
          (root, ()) = .ok changed →
        changed.1.countOpen .command < root.countOpen .command := by
  obtain ⟨root, hroot⟩ := exists_tree_of_isOk 2 "SELECT ? FROM t".toList (by decide +kernel)
  obtain ⟨_, _, _, hmono, hless⟩ := written_once root [] [.bind [.integer 7]] ()
  exact ⟨root, hroot, hmono .command, fun changed hchanged => hless _ changed _ hchanged rfl⟩

end Session

namespace Node

variable {n : Node}

/-- Whether a session makes a tree of the tree of a query. -/
def Reachable (n : Node) : Prop :=
  ∃ (σ : Type) (depth : Nat) (q : Text) (root : Node) (session : Session σ) (s : σ),
    parse depth q = .ok root ∧ (session.run (root, s)).1 = n

theorem Reachable.tiled (h : n.Reachable) : n.Everywhere Tiled := by
  obtain ⟨σ, depth, q, root, session, s, hroot, rfl⟩ := h
  exact Session.run_tiled hroot session s

end Node

end QueryTree
