import Mathlib.Data.List.Forall2
import QueryTree.Recognizer.Basic

/-!
# Corresponding readings

Two texts may be read alike although they differ. A correspondence says which texts
and which nodes are taken for the same, and two recognizers agree under it if they
read corresponding texts alike: they both find something, and what they find and what
remains correspond, or they are both absent, or both break off. Each way to combine
recognizers keeps their agreement.
-/

namespace QueryTree

/-- What is taken for the same in two readings. -/
structure Correspondence where
  text : Text → Text → Prop
  node : Node → Node → Prop
  /-- The levels of nesting left. -/
  room : Nat → Nat → Prop
  fault : Fault → Fault → Prop
  /-- The faults of the first reading that set the second one free. -/
  excused : Fault → Prop

namespace Correspondence

variable {C : Correspondence} {α β α' β' σ : Type}

/-- Whether lists of nodes correspond node by node. -/
def nodes (C : Correspondence) (ns ms : List Node) : Prop :=
  List.Forall₂ C.node ns ms

/-- Whether a fault is excused or corresponds to another. -/
def Fails (C : Correspondence) (f g : Fault) : Prop :=
  C.excused f ∨ C.fault f g

/-- Whether two outcomes are alike, for values related by `R`. -/
inductive Matches (C : Correspondence) (R : α → β → Prop) : Reading α → Reading β → Prop where
  | found {a : α} {b : β} {rest rest' : Text} (hvalue : R a b) (hrest : C.text rest rest') :
      Matches C R (.found a rest) (.found b rest')
  | absent : Matches C R .absent .absent
  | broken {f g : Fault} (h : C.fault f g) : Matches C R (.broken f) (.broken g)
  | excused {f : Fault} (h : C.excused f) (y : Reading β) : Matches C R (.broken f) y

theorem Fails.matches {R : α → β → Prop} {f g : Fault} (h : C.Fails f g) :
    C.Matches R (.broken f) (.broken g) := by
  rcases h with h | h
  · exact .excused h _
  · exact .broken h

theorem Matches.mono {R S : α → β → Prop} {x : Reading α} {y : Reading β}
    (h : C.Matches R x y) (hRS : ∀ a b, R a b → S a b) : C.Matches S x y := by
  cases h with
  | found hvalue hrest => exact .found (hRS _ _ hvalue) hrest
  | absent => exact .absent
  | broken h => exact .broken h
  | excused h => exact .excused h y

theorem Matches.bind {R : α → β → Prop} {S : α' → β' → Prop} {x : Reading α} {y : Reading β}
    {next : α → Recognizer α'} {next' : β → Recognizer β'} (h : C.Matches R x y)
    (hnext : ∀ a b t u, x = .found a t → y = .found b u → R a b → C.text t u →
      C.Matches S (next a t) (next' b u)) :
    C.Matches S (x.bind next) (y.bind next') := by
  cases h with
  | found hvalue hrest => exact hnext _ _ _ _ rfl rfl hvalue hrest
  | absent => exact .absent
  | broken h => exact .broken h
  | excused h => exact .excused h _

theorem Matches.map {R : α → β → Prop} {S : α' → β' → Prop} {x : Reading α} {y : Reading β}
    {f : α → α'} {g : β → β'} (h : C.Matches R x y) (hfg : ∀ a b, R a b → S (f a) (g b)) :
    C.Matches S (x.map f) (y.map g) :=
  h.bind fun a b _ _ _ _ hvalue hrest => .found (hfg a b hvalue) hrest

theorem Matches.orElse {R : α → β → Prop} {r₁ r₂ : Recognizer α} {s₁ s₂ : Recognizer β}
    {t u : Text} (h₁ : C.Matches R (r₁ t) (s₁ u)) (h₂ : C.Matches R (r₂ t) (s₂ u)) :
    C.Matches R (r₁.orElse r₂ t) (s₁.orElse s₂ u) := by
  unfold Recognizer.orElse
  generalize r₁ t = x at h₁ ⊢
  generalize s₁ u = y at h₁ ⊢
  cases h₁ with
  | found hvalue hrest => exact .found hvalue hrest
  | absent => exact h₂
  | broken h => exact .broken h
  | excused h => exact .excused h _

/-- Whether two recognizers read corresponding texts alike. -/
def Agrees (C : Correspondence) (R : α → β → Prop) (r : Recognizer α) (s : Recognizer β) :
    Prop :=
  ∀ t u, C.text t u → C.Matches R (r t) (s u)

namespace Agrees

open Recognizer

variable {R : α → β → Prop} {r₁ r₂ : Recognizer α} {s₁ s₂ : Recognizer β}
variable {r s : Recognizer Node} {u u' v v' : Recognizer (List Node)}

theorem orElse (h₁ : C.Agrees R r₁ s₁) (h₂ : C.Agrees R r₂ s₂) :
    C.Agrees R (r₁.orElse r₂) (s₁.orElse s₂) :=
  fun t t' ht => (h₁ t t' ht).orElse (h₂ t t' ht)

theorem orFault (h : C.Agrees R r₁ s₁) {fault fault' : Text → Fault}
    (hfault : ∀ t t', C.text t t' → C.Fails (fault t) (fault' t')) :
    C.Agrees R (r₁.orFault fault) (s₁.orFault fault') :=
  h.orElse fun t t' ht => (hfault t t' ht).matches

theorem under (h : C.Agrees R r₁ s₁) (demand : Demand) {c : Category}
    (hfault : ∀ t t', C.text t t' → C.Fails (.expected c t) (.expected c t')) :
    C.Agrees R (r₁.under demand c) (s₁.under demand c) := by
  cases demand with
  | optional => exact h
  | mandatory => exact h.orFault hfault

theorem one (h : C.Agrees C.node r s) : C.Agrees C.nodes r.one s.one :=
  fun t t' ht => (h t t' ht).map fun _ _ hnode => .cons hnode .nil

theorem seq (hu : C.Agrees C.nodes u u') (hv : C.Agrees C.nodes v v') :
    C.Agrees C.nodes (u.seq v) (u'.seq v') :=
  fun t t' ht => (hu t t' ht).bind fun _ _ rest rest' _ _ hns hrest =>
    (hv rest rest' hrest).map fun _ _ hms => List.rel_append hns hms

theorem andThen {parts parts' : Node → Recognizer (List Node)} (h : C.Agrees C.node r s)
    (hparts : ∀ t n n' rest, r t = .found n rest → C.node n n' →
      C.Agrees C.nodes (parts n) (parts' n')) :
    C.Agrees C.nodes (r.andThen parts) (s.andThen parts') :=
  fun t t' ht => (h t t' ht).bind fun n n' rest rest' hn _ hnode hrest =>
    (hparts t n n' rest hn hnode rest rest' hrest).map fun _ _ hms => .cons hnode hms

theorem optional (h : C.Agrees C.nodes u u') :
    C.Agrees C.nodes (Recognizer.optional u) (Recognizer.optional u') :=
  h.orElse fun _ _ ht => .found .nil ht

/-- Recognizers that agree still do if both drop what fails a test that comes out
alike. -/
theorem filter (h : C.Agrees C.node r s) {keep keep' : Node → Text → Bool}
    (hkeep : ∀ t n n' rest rest', r t = .found n rest → C.node n n' → C.text rest rest' →
      keep n rest = keep' n' rest') :
    C.Agrees C.node
      (fun t => (r t).bind fun n rest => if keep n rest then .found n rest else .absent)
      (fun t => (s t).bind fun n rest => if keep' n rest then .found n rest else .absent) := by
  intro t t' ht
  apply (h t t' ht).bind
  intro n n' rest rest' hn _ hnode hrest
  rw [hkeep t n n' rest rest' hn hnode hrest]
  split
  · exact .found hnode hrest
  · exact .absent

end Agrees

theorem nodes.foldl {S : σ → σ → Prop} {next : σ → Node → σ} {ns ms : List Node}
    (hns : C.nodes ns ms)
    (hnext : ∀ s s' n n', S s s' → C.node n n' → S (next s n) (next s' n')) {s s' : σ}
    (hs : S s s') : S (ns.foldl next s) (ms.foldl next s') := by
  induction hns generalizing s s' with
  | nil => exact hs
  | cons hn _ ih => exact ih (hnext s s' _ _ hs hn)

/-- What a step of a repetition has to satisfy: it is absent at the end of the text,
and it takes something off the text elsewhere. -/
structure Advances (step : Recognizer (List Node)) : Prop where
  at_end : step [] = .absent
  shorter : ∀ t ns rest, step t = .found ns rest → rest.length < t.length

/-- Repetitions agree if their steps do. The bounds on the number of rounds may
differ, for neither of them is ever reached. -/
theorem repeatUpTo_matches {S : σ → σ → Prop} {step step' : σ → Recognizer (List Node)}
    {next : σ → Node → σ} (hnil : ∀ t u, C.text t u → (t = [] ↔ u = []))
    (hstep : ∀ s s', S s s' → C.Agrees C.nodes (step s) (step' s'))
    (hnext : ∀ s s' n n', S s s' → C.node n n' → S (next s n) (next s' n'))
    (hadvances : ∀ s, Advances (step s)) (hadvances' : ∀ s, Advances (step' s))
    {bound bound' : Nat} {s s' : σ} {t u : Text} (hs : S s s') (ht : C.text t u)
    (hbound : t.length ≤ bound) (hbound' : u.length ≤ bound') :
    C.Matches C.nodes (Recognizer.repeatUpTo step next bound s t)
      (Recognizer.repeatUpTo step' next bound' s' u) := by
  induction bound generalizing bound' s s' t u with
  | zero =>
      obtain rfl : t = [] := List.length_eq_zero_iff.mp (Nat.le_zero.mp hbound)
      obtain rfl : u = [] := (hnil [] u ht).mp rfl
      cases bound' with
      | zero => exact .found .nil ht
      | succ bound' =>
          rw [Recognizer.repeatUpTo, Recognizer.repeatUpTo, (hadvances' s').at_end]
          exact .found .nil ht
  | succ bound ih =>
      cases bound' with
      | zero =>
          obtain rfl : u = [] := List.length_eq_zero_iff.mp (Nat.le_zero.mp hbound')
          obtain rfl : t = [] := (hnil t [] ht).mpr rfl
          rw [Recognizer.repeatUpTo, Recognizer.repeatUpTo, (hadvances s).at_end]
          exact .found .nil ht
      | succ bound' =>
          unfold Recognizer.repeatUpTo
          have hround := hstep s s' hs t u ht
          generalize hx : step s t = x at hround ⊢
          generalize hy : step' s' u = y at hround ⊢
          cases hround with
          | found hns hrest =>
              have hlength := (hadvances s).shorter _ _ _ hx
              have hlength' := (hadvances' s').shorter _ _ _ hy
              exact (ih (hns.foldl hnext hs) hrest (by omega) (by omega)).map
                fun _ _ hms => List.rel_append hns hms
          | absent => exact .found .nil ht
          | broken h => exact .broken h
          | excused h => exact .excused h _

theorem Agrees.repeated {S : σ → σ → Prop} {step step' : σ → Recognizer (List Node)}
    {next : σ → Node → σ} (hnil : ∀ t u, C.text t u → (t = [] ↔ u = []))
    (hstep : ∀ s s', S s s' → C.Agrees C.nodes (step s) (step' s'))
    (hnext : ∀ s s' n n', S s s' → C.node n n' → S (next s n) (next s' n'))
    (hadvances : ∀ s, Advances (step s)) (hadvances' : ∀ s, Advances (step' s)) {s s' : σ}
    (hs : S s s') :
    C.Agrees C.nodes (Recognizer.repeated step next s) (Recognizer.repeated step' next s') :=
  fun _ _ ht => repeatUpTo_matches hnil hstep hnext hadvances hadvances' hs ht
    (Nat.le_refl _) (Nat.le_refl _)

end Correspondence

end QueryTree
