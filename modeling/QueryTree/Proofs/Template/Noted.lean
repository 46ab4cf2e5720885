import QueryTree.Proofs.Derivation.Ahead

/-!
# Noting the nodes of some categories

What a query template says is told by the nodes of a few categories. Their labels are
noted while the template is read from its front to its end, part by part, without the tree
as a whole.
-/

namespace QueryTree

open Recognizer

namespace Node

variable {β : Type} {keep : Category → Bool} {f : Node → β}

/-- What `f` tells of the nodes of the categories to keep, in document order. -/
def told (keep : Category → Bool) (f : Node → β) (n : Node) : List β :=
  (n.preorder.filter fun m => keep m.category).map f

/-- The labels of the nodes of the categories to keep, in document order. -/
def noted (keep : Category → Bool) (n : Node) : List Label :=
  (n.preorder.filter fun m => keep m.category).map label

theorem told_eq (n : Node) :
    n.told keep f =
      (if keep n.category then [f n] else []) ++ n.children.flatMap (told keep f) := by
  have hchildren : ((preorderAll n.children).filter fun m => keep m.category).map f =
      n.children.flatMap (told keep f) := by
    rw [preorderAll_eq_flatMap, List.filter_flatMap, List.map_flatMap]
    rfl
  rw [told, preorder_eq, List.filter_cons]
  split
  · rw [List.map_cons, hchildren]
    rfl
  · rw [hchildren]
    rfl

theorem told_leaf (c : Category) (w rest : Text) :
    (leaf c w rest).told keep f = if keep c then [f (leaf c w rest)] else [] := by
  rw [told_eq]
  exact List.append_nil _

/-- Links change nothing that is told without them. -/
theorem flatMap_told_chain
    (hf : ∀ (n : Node) (p q : Option Nat), f { n with prev := p, next := q } = f n)
    (ns : List Node) : (chain ns).flatMap (told keep f) = ns.flatMap (told keep f) := by
  rw [List.flatMap_def, List.flatMap_def,
    map_chain fun n p q => by rw [told_eq, told_eq n, hf]]

/-- Of a node of another category is told what is told of its parts. -/
theorem told_branch {c : Category} (hc : keep c = false) (ns : List Node) (rest : Text) :
    (branch c ns rest).told keep f = ns.flatMap (told keep f) := by
  rw [told_eq]
  change (if keep c then _ else _) ++ _ = _
  rw [hc]
  rfl

theorem told_branch_of_keep {c : Category} (hc : keep c = true) (ns : List Node) (rest : Text) :
    (branch c ns rest).told keep f = f (branch c ns rest) :: ns.flatMap (told keep f) := by
  rw [told_eq]
  change (if keep c then _ else _) ++ _ = _
  rw [hc]
  rfl

/-- Nothing is told of nodes that are not there. -/
theorem told_eq_nil_of_noted {c : Category} {n : Node} (hc : keep c = true)
    (h : ∀ l ∈ n.noted keep, l.1 ≠ c) : n.told (fun d => d = c) f = [] := by
  rw [told, List.map_eq_nil_iff, List.filter_eq_nil_iff]
  intro m hm hmc
  have hmc : m.category = c := of_decide_eq_true hmc
  exact h m.label (List.mem_map_of_mem (List.mem_filter.mpr ⟨hm, by rw [hmc, hc]⟩)) hmc

theorem noted_leaf (c : Category) (w rest : Text) :
    (leaf c w rest).noted keep = if keep c then [(c, w)] else [] :=
  told_leaf c w rest

theorem flatMap_noted_chain (ns : List Node) :
    (chain ns).flatMap (noted keep) = ns.flatMap (noted keep) :=
  flatMap_told_chain (fun _ _ _ => rfl) ns

/-- A node of another category notes what its parts note. -/
theorem noted_branch {c : Category} (hc : keep c = false) (ns : List Node) (rest : Text) :
    (branch c ns rest).noted keep = ns.flatMap (noted keep) :=
  told_branch hc ns rest

theorem noted_branch_of_keep {c : Category} (hc : keep c = true) (ns : List Node) (rest : Text) :
    (branch c ns rest).noted keep =
      (c, (ns.map spelling).flatten) :: ns.flatMap (noted keep) :=
  told_branch_of_keep hc ns rest

/-- Whether whitespace, symbols, keywords and commands are not among the categories to keep. -/
structure SkipsWords (keep : Category → Bool) : Prop where
  whitespace : keep .whitespace = false
  symbol : keep .symbol = false
  reservedWord : keep .reservedWord = false
  reservedWordSequence : keep .reservedWordSequence = false
  command : keep .command = false

/-- Whether the parts that a name is made of are not among the categories to keep. -/
structure SkipsNames (keep : Category → Bool) : Prop where
  itemName : keep .itemName = false
  itemNameCaseInsensitive : keep .itemNameCaseInsensitive = false
  accessor : keep .accessor = false

theorem flatMap_told_gapNodes (h : keep .whitespace = false) (t : Text) :
    (Grammar.gapNodes t).flatMap (told keep f) = [] := by
  unfold Grammar.gapNodes
  split
  · rfl
  · rw [List.flatMap_singleton, told_leaf, h]
    rfl

theorem flatMap_noted_gapNodes (h : SkipsWords keep) (t : Text) :
    (Grammar.gapNodes t).flatMap (noted keep) = [] :=
  flatMap_told_gapNodes h.whitespace t

theorem map_nodes (f : Node → β) (c : Category) (n : Node) :
    (n.nodes c).map f = n.told (fun d => d = c) f := by
  rw [nodes_eq_filter]
  rfl

/-- The texts of the nodes of one category among those noted. -/
theorem map_spelling_nodes {c : Category} (hc : keep c = true) (n : Node) :
    (n.nodes c).map spelling = ((n.noted keep).filter fun l => l.1 = c).map Prod.snd := by
  have hfilter : (n.nodes c) = (n.preorder.filter fun m => keep m.category).filter
      fun m => m.category = c := by
    rw [nodes_eq_filter, List.filter_filter]
    refine List.filter_congr fun m _ => ?_
    by_cases hm : m.category = c
    · simp [hm, hc]
    · simp [hm]
  rw [hfilter, noted, List.filter_map, List.map_map]
  rfl

end Node

namespace Recognizer

variable {σ : Type} {step : σ → Recognizer (List Node)} {next : σ → Node → σ}

/-- The rounds of a repetition, from one state and text to another. -/
inductive Rounds (step : σ → Recognizer (List Node)) (next : σ → Node → σ) :
    σ → Text → List Node → σ → Text → Prop
  | done (s : σ) (t : Text) : Rounds step next s t [] s t
  | round {s s' : σ} {t middle rest : Text} {ns ms : List Node} (h : step s t = .found ns middle)
      (hlength : middle.length < t.length)
      (more : Rounds step next (ns.foldl next s) middle ms s' rest) :
      Rounds step next s t (ns ++ ms) s' rest

theorem Rounds.single {s : σ} {t rest : Text} {ns : List Node} (h : step s t = .found ns rest)
    (hlength : rest.length < t.length) : Rounds step next s t ns (ns.foldl next s) rest := by
  have hround : Rounds step next s t (ns ++ []) (ns.foldl next s) rest :=
    .round h hlength (.done _ _)
  rwa [List.append_nil] at hround

theorem Rounds.trans {s s' s'' : σ} {t middle rest : Text} {ns ms : List Node}
    (h : Rounds step next s t ns s' middle) (h' : Rounds step next s' middle ms s'' rest) :
    Rounds step next s t (ns ++ ms) s'' rest := by
  induction h with
  | done s t => exact h'
  | round hstep hlength _ ih =>
      rw [List.append_assoc]
      exact .round hstep hlength (ih h')

/-- A repetition goes on round by round until there is nothing more to read. -/
theorem Rounds.repeated {s s' : σ} {t rest : Text} {ns : List Node}
    (h : Rounds step next s t ns s' rest) (hend : step s' rest = .absent) :
    Recognizer.repeated step next s t = .found ns rest := by
  have hrounds : ∀ bound, t.length ≤ bound → repeatUpTo step next bound s t = .found ns rest := by
    induction h with
    | done s t =>
        intro bound _
        cases bound with
        | zero => rfl
        | succ bound => rw [repeatUpTo, hend]
    | round hstep hlength _ ih =>
        intro bound hbound
        obtain ⟨bound, rfl⟩ := Nat.exists_eq_add_of_le' (Nat.one_le_of_lt (hlength.trans_le hbound))
        rw [repeatUpTo, hstep]
        dsimp only
        rw [ih hend bound (by omega), Reading.map_found]
  exact hrounds t.length le_rfl

end Recognizer

end QueryTree
