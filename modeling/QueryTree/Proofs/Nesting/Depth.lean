import QueryTree.Proofs.Faults.Source
import QueryTree.Proofs.Nesting.Limit

/-!
# What the limit on nesting does

A limit refuses the sources whose trees have more levels, and nothing else. It never
changes a tree or another error, and a source is never refused under a limit that is not
below its size.
-/

namespace QueryTree

section Relaxing

variable {k l : Nat} {q : Text}

/-- Whether the outcome of reading is that the source nests too deep. -/
def IsTooDeep (outcome : Except ParseError Node) : Prop :=
  ∃ limit offset, outcome = .error (.tooDeep limit offset)

/-- Two limits side by side: either they make no difference, or the smaller one refuses the
source and the wider one gives no tree that would keep to the smaller. -/
theorem parse_limited (hkl : k ≤ l) (q : Text) :
    (parse l q = parse k q ∨ IsTooDeep (parse k q)) ∧
      (∀ root, parse k q = .ok root → root.levels ≤ k) ∧
      (∀ root, parse l q = .ok root → root.levels ≤ k → parse k q = .ok root) := by
  have hlimited := Grammar.statement_limits hkl q
  unfold parse
  generalize Grammar.statement k q = x at hlimited ⊢
  generalize Grammar.statement l q = y at hlimited ⊢
  cases hlimited with
  | same h =>
      cases x with
      | found root rest =>
          have hlevels := h root rest rfl
          exact ⟨.inl rfl, fun _ hroot => Except.ok.inj hroot ▸ hlevels, fun _ hroot _ => hroot⟩
      | absent => exact ⟨.inl rfl, nofun, nofun⟩
      | broken f =>
          refine ⟨?_, nofun, nofun⟩
          cases f with
          | tooDeep place => exact .inr ⟨_, _, rfl⟩
          | _ => exact .inl rfl
  | refused place h =>
      refine ⟨.inr ⟨_, _, rfl⟩, nofun, ?_⟩
      cases h with
      | found hdeep rest =>
          rintro _ ⟨⟩ hlevels
          exact absurd hlevels (Nat.not_le.mpr hdeep)
      | broken f => exact nofun

/-- A source that is not refused is read in the same way under every wider limit. -/
theorem parse_of_le (hkl : k ≤ l) (h : ¬IsTooDeep (parse k q)) : parse l q = parse k q :=
  (parse_limited hkl q).1.resolve_right h

theorem parse_eq_ok_of_le {root : Node} (hkl : k ≤ l) (h : parse k q = .ok root) :
    parse l q = .ok root := by
  refine (parse_of_le hkl ?_).trans h
  rintro ⟨limit, offset, hdeep⟩
  rw [h] at hdeep
  cases hdeep

end Relaxing

section Size

theorem Text.length_le_byteSize (t : Text) : t.length ≤ byteSize t := by
  induction t with
  | nil => exact le_rfl
  | cons c t ih =>
      rw [List.length_cons, byteSize_cons, Nat.add_comm]
      exact Nat.add_le_add c.utf8Size_pos ih

theorem Text.BeginsLevel.ne_nil {t : Text} (h : t.BeginsLevel) : t ≠ [] := by
  rintro rfl
  rcases h with h | h | h <;> cases h

/-- A source that is refused has more characters than the limit allows levels, and the error
carries the limit. -/
theorem lt_length_of_tooDeep {depth limit offset : Nat} {q : Text}
    (h : parse depth q = .error (.tooDeep limit offset)) : limit = depth ∧ depth < q.length := by
  obtain ⟨f, hf, hlocate⟩ := exists_fault_of_parse h
  cases f with
  | tooDeep place =>
      obtain ⟨-, hlength, hbegins⟩ := hf
      have hplace : 0 < place.length := List.length_pos_of_ne_nil hbegins.ne_nil
      injection hlocate with hlimit
      exact ⟨hlimit.symm, by omega⟩
  | _ => cases hlocate

/-- The limit on nesting only ever turns results into refusals. A result that is no refusal is
the result under every wider limit, a refusal carries the limit, and a limit that is not below
the size of the source refuses nothing. -/
theorem depth_limit_only_refuses (q : Text) :
    (∀ d d', d ≤ d' → ¬IsTooDeep (parse d q) → parse d' q = parse d q) ∧
      (∀ d limit offset, parse d q = .error (.tooDeep limit offset) → limit = d) ∧
      ∀ d, Text.byteSize q ≤ d → ¬IsTooDeep (parse d q) := by
  refine ⟨fun d d' hd => parse_of_le hd, fun d limit offset h => (lt_length_of_tooDeep h).1, ?_⟩
  rintro d hd ⟨limit, offset, h⟩
  have hlength := (lt_length_of_tooDeep h).2
  exact absurd (q.length_le_byteSize.trans hd) (Nat.not_le.mpr hlength)

theorem depth_limit_only_refuses_nested :
    parse 1 "SELECT a FROM t".toList = .error (.tooDeep 1 9) ∧
      parse 64 "SELECT a FROM t".toList = parse 2 "SELECT a FROM t".toList ∧
      ¬IsTooDeep (parse 15 "SELECT a FROM t".toList) := by
  obtain ⟨root, hroot⟩ := exists_tree_of_isOk 2 "SELECT a FROM t".toList (by decide +kernel)
  obtain ⟨hwider, -, hsize⟩ := depth_limit_only_refuses "SELECT a FROM t".toList
  refine ⟨by decide +kernel, hwider 2 64 (by decide) ?_, hsize 15 (by decide +kernel)⟩
  rintro ⟨limit, offset, h⟩
  rw [hroot] at h
  cases h

end Size

section Exact

/-- Whether a source is read into a tree if nothing limits its nesting: every limit that is
wide enough lets it pass. -/
def ReadsUnlimited (q : Text) (root : Node) : Prop :=
  ∃ bound, ∀ depth, bound ≤ depth → parse depth q = .ok root

/-- The limit on nesting is exact with respect to levels: a source is read under a limit just
if it is read without one and its tree has no more levels. These are the levels of nesting,
unless a bracket or a brace that opens no collection is a symbol of a command. -/
theorem depth_limit_exact (depth : Nat) (q : Text) (root : Node) :
    (parse depth q = .ok root ↔ ReadsUnlimited q root ∧ root.levels ≤ depth) ∧
      (root.OpensAll →
        (parse depth q = .ok root ↔ ReadsUnlimited q root ∧ root.nesting ≤ depth)) := by
  have hlevels : parse depth q = .ok root ↔ ReadsUnlimited q root ∧ root.levels ≤ depth := by
    constructor
    · intro h
      exact ⟨⟨depth, fun _ hl => parse_eq_ok_of_le hl h⟩,
        (parse_limited le_rfl q).2.1 root h⟩
    · rintro ⟨⟨bound, hbound⟩, hroot⟩
      exact (parse_limited (Nat.le_max_left depth bound) q).2.2 root
        (hbound _ (Nat.le_max_right depth bound)) hroot
  exact ⟨hlevels, fun h => h.levels_eq_nesting ▸ hlevels⟩

theorem depth_limit_exact_nested :
    ∃ root, root.OpensAll ∧ parse 2 "SELECT [a] FROM t".toList = .ok root ∧
      ReadsUnlimited "SELECT [a] FROM t".toList root ∧ root.nesting ≤ 2 := by
  obtain ⟨root, hroot⟩ := exists_tree_of_isOk 2 "SELECT [a] FROM t".toList (by decide +kernel)
  have hopens : (parse 2 "SELECT [a] FROM t".toList).map (fun n => decide n.OpensAll) =
      .ok true := by
    decide +kernel
  rw [hroot] at hopens
  have hopens : root.OpensAll := of_decide_eq_true (Except.ok.inj hopens)
  have hexact := (depth_limit_exact 2 "SELECT [a] FROM t".toList root).2 hopens
  exact ⟨root, hopens, hroot, hexact.mp hroot⟩

/-- A brace that opens no map takes up a level, and so a source without any nesting below its
command is refused. -/
theorem depth_limit_refuses_lone_brace :
    ∃ root, ReadsUnlimited "SELECT \x7ba\x7d".toList root ∧ root.nesting ≤ 1 ∧
      parse 1 "SELECT \x7ba\x7d".toList = .error (.tooDeep 1 7) := by
  obtain ⟨root, hroot⟩ := exists_tree_of_isOk 2 "SELECT \x7ba\x7d".toList (by decide +kernel)
  refine ⟨root, ⟨2, fun _ hl => parse_eq_ok_of_le hl hroot⟩, ?_, by decide +kernel⟩
  have hnesting : (parse 2 "SELECT \x7ba\x7d".toList).map Node.nesting = .ok 1 := by
    decide +kernel
  rw [hroot] at hnesting
  exact (Except.ok.inj hnesting).le

end Exact

end QueryTree
