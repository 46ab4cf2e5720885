import QueryTree.Proofs.LetterCase.Tree

/-!
# Outcomes up to the case of letters

Whether a source is read, and where and why it is not, does not depend on the case of its
letters. Every source is compared with its upper case, and so with every other source that
has the same upper case.
-/

namespace QueryTree

namespace LetterCase

/-- Reading the upper case of a source. The tree and the error are those of the source, in
upper case. -/
theorem parse_upper (depth : Nat) (q : Text) :
    parse depth (Text.upper q) =
      ((parse depth q).map Node.upper).mapError ParseError.upper := by
  have hread := lawful.statement (k := depth) (l := depth) rfl q (Text.upper q) rfl
  unfold parse
  generalize Grammar.statement depth q = x at hread ⊢
  generalize Grammar.statement depth (Text.upper q) = y at hread ⊢
  cases hread with
  | found hroot _ => exact congrArg Except.ok hroot
  | absent =>
      have hfault : Fault.expected .statement (Text.upper q) =
          (Fault.expected .statement q).upper := rfl
      simp only [Text.byteSize_upper, hfault, Fault.locate_upper]
      rfl
  | @broken f g hfault =>
      obtain rfl : g = f.upper := hfault
      simp only [Text.byteSize_upper, Fault.locate_upper]
      rfl
  | excused h => exact absurd h id

/-- Whether two sources came out alike up to the case of letters. -/
inductive SameOutcome (q q' : Text) : Except ParseError Node → Except ParseError Node → Prop where
  /-- The trees have the same nodes at the same places, over the same part of the source. -/
  | read {root root' : Node} (htexts : root.upper = root'.upper)
      (hplaces : ∀ path, (root.at? path).map (fun n => (n.shape, n.span q)) =
        (root'.at? path).map fun n => (n.shape, n.span q')) :
      SameOutcome q q' (.ok root) (.ok root')
  /-- The sources are rejected for the same reason at the same place. -/
  | rejected {e e' : ParseError} (h : e.upper = e'.upper) :
      SameOutcome q q' (.error e) (.error e')

/-- What a source and its upper case have in common. -/
theorem place_upper (q : Text) (root : Node) (path : Path) :
    (root.upper.at? path).map (fun n => (n.shape, n.span (Text.upper q))) =
      (root.at? path).map fun n => (n.shape, n.span q) := by
  rw [Node.at?_upper, Option.map_map]
  refine congrFun (congrArg Option.map (funext fun n => ?_)) _
  rw [Function.comp, Node.shape_upper, Node.span_upper]

end LetterCase

open LetterCase in
/-- Reading does not tell the cases of a letter apart. Two sources that are the same up to
the case of letters are both read into trees with the same nodes at the same places, or
both rejected with the same error, whose text that was found may differ in case. -/
theorem parse_sameOutcome (depth : Nat) {q q' : Text} (h : Text.upper q = Text.upper q') :
    SameOutcome q q' (parse depth q) (parse depth q') := by
  have hupper : ((parse depth q).map Node.upper).mapError ParseError.upper =
      ((parse depth q').map Node.upper).mapError ParseError.upper := by
    rw [← parse_upper, ← parse_upper, h]
  cases hq : parse depth q with
  | ok root =>
      cases hq' : parse depth q' with
      | ok root' =>
          rw [hq, hq'] at hupper
          have hroot : root.upper = root'.upper := Except.ok.inj hupper
          refine .read hroot fun path => ?_
          rw [← place_upper q, ← place_upper q', hroot, h]
      | error e' =>
          rw [hq, hq'] at hupper
          cases hupper
  | error e =>
      cases hq' : parse depth q' with
      | ok root' =>
          rw [hq, hq'] at hupper
          cases hupper
      | error e' =>
          rw [hq, hq'] at hupper
          exact .rejected (Except.error.inj hupper)

theorem parse_sameOutcome_mixed :
    ∃ root root', parse 2 "SELECT a FROM t WHERE b = 'x'".toList = .ok root ∧
      parse 2 "Select A frOM T wheRE B = 'X'".toList = .ok root' ∧
      LetterCase.SameOutcome "SELECT a FROM t WHERE b = 'x'".toList
        "Select A frOM T wheRE B = 'X'".toList (.ok root) (.ok root') := by
  obtain ⟨root, hroot⟩ := exists_tree_of_isOk 2 "SELECT a FROM t WHERE b = 'x'".toList
    (by decide +kernel)
  obtain ⟨root', hroot'⟩ := exists_tree_of_isOk 2 "Select A frOM T wheRE B = 'X'".toList
    (by decide +kernel)
  have hcase : Text.upper "SELECT a FROM t WHERE b = 'x'".toList =
      Text.upper "Select A frOM T wheRE B = 'X'".toList := by decide +kernel
  have hsame := parse_sameOutcome 2 hcase
  rw [hroot, hroot'] at hsame
  exact ⟨root, root', hroot, hroot', hsame⟩

end QueryTree
