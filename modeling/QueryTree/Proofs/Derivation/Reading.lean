import QueryTree.Proofs.Derivation.Phrase

/-!
# Recognizers that read phrases

What a recognizer finds is a phrase of its language: the nodes are well formed, they
cover the text up to the rest, and their labels are a word of the language. Each way
to combine recognizers combines their languages.
-/

namespace QueryTree

open scoped Computability

namespace Reading

variable {α β : Type}

theorem bind_eq_found {x : Reading α} {next : α → Recognizer β} {b : β} {rest : Text} :
    x.bind next = .found b rest ↔
      ∃ a middle, x = .found a middle ∧ next a middle = .found b rest := by
  cases x <;> simp

theorem bind_assoc {γ : Type} (x : Reading α) (f : α → Recognizer β) (g : β → Recognizer γ) :
    (x.bind f).bind g = x.bind fun a rest => (f a rest).bind g := by
  cases x <;> rfl

theorem map_eq_found {x : Reading α} {f : α → β} {b : β} {rest : Text} :
    x.map f = .found b rest ↔ ∃ a, x = .found a rest ∧ f a = b := by
  cases x <;> simp [and_comm]

end Reading

namespace Recognizer

theorem orElse_eq_found {α : Type} {r s : Recognizer α} {t rest : Text} {a : α} :
    r.orElse s t = .found a rest ↔
      r t = .found a rest ∨ r t = .absent ∧ s t = .found a rest := by
  unfold Recognizer.orElse
  cases r t <;> simp

variable {r : Recognizer Node} {u v : Recognizer (List Node)} {t rest : Text} {ns : List Node}

theorem seq_eq_found : u.seq v t = .found ns rest ↔
    ∃ as middle bs, u t = .found as middle ∧ v middle = .found bs rest ∧ as ++ bs = ns := by
  simp only [seq, Reading.bind_eq_found, Reading.map_eq_found, exists_and_left]

theorem andThen_eq_found {parts : Node → Recognizer (List Node)} :
    r.andThen parts t = .found ns rest ↔
      ∃ n middle bs, r t = .found n middle ∧ parts n middle = .found bs rest ∧ n :: bs = ns := by
  simp only [andThen, Reading.bind_eq_found, Reading.map_eq_found, exists_and_left]

theorem node_eq_found {c : Category} {n : Node} : node c u t = .found n rest ↔
    ∃ ns, u t = .found ns rest ∧ Node.branch c (Node.chain ns) rest = n := by
  unfold node
  rw [Reading.bind_eq_found]
  constructor
  · rintro ⟨ns, middle, hns, hn⟩
    obtain ⟨rfl, rfl⟩ := Reading.found.inj hn
    exact ⟨ns, hns, rfl⟩
  · rintro ⟨ns, hns, rfl⟩
    exact ⟨ns, rest, hns, rfl⟩

end Recognizer

/-- Whether nodes are a phrase that stands in front of a rest: they are well formed,
they cover the text up to the rest, and their labels belong to the language. -/
structure Derives (l : Language Label) (t : Text) (ns : List Node) (rest : Text) : Prop where
  labels : ns.map Node.label ∈ l
  tiles : Node.Tiles t ns rest
  formed : ∀ n ∈ ns, n.Everywhere Node.Formed

namespace Derives

variable {l m : Language Label} {t middle rest : Text} {ns ms : List Node}

theorem mono (h : Derives l t ns rest) (hlm : l ≤ m) : Derives m t ns rest :=
  ⟨hlm h.labels, h.tiles, h.formed⟩

theorem nil : Derives 1 t [] t :=
  ⟨rfl, rfl, by simp⟩

theorem append (h : Derives l t ns middle) (h' : Derives m middle ms rest) :
    Derives (l * m) t (ns ++ ms) rest := by
  refine ⟨?_, h.tiles.append h'.tiles, ?_⟩
  · rw [List.map_append]
    exact Language.append_mem_mul h.labels h'.labels
  · intro n hn
    exact (List.mem_append.mp hn).elim (h.formed n) (h'.formed n)

theorem chain (h : Derives l t ns rest) : Derives l t (Node.chain ns) rest := by
  refine ⟨?_, Node.tiles_chain.mpr h.tiles, ?_⟩
  · rw [Node.map_chain fun _ _ _ => rfl]
    exact h.labels
  · intro n hn
    obtain ⟨k, hk, p, q, rfl⟩ := Node.mem_chain hn
    exact (h.formed k hk).linked p q fun hf => hf.linked p q

theorem ne_nil (h : Derives l t ns rest) (hl : [] ∉ l) : ns ≠ [] := by
  rintro rfl
  exact hl h.labels

theorem flatten_ne_nil (h : Derives l t ns rest) (hl : [] ∉ l) :
    (ns.map Node.spelling).flatten ≠ [] := by
  obtain ⟨n, ns, rfl⟩ := List.exists_cons_of_ne_nil (h.ne_nil hl)
  have hn := (h.formed n List.mem_cons_self).self.nonempty
  simp [hn]

/-- A phrase that cannot be empty takes something off the text. -/
theorem length_lt (h : Derives l t ns rest) (hl : [] ∉ l) : rest.length < t.length := by
  rw [← h.tiles.flatten_append, List.length_append]
  exact Nat.lt_add_of_pos_left (List.length_pos_of_ne_nil (h.flatten_ne_nil hl))

/-- A node over the parts of its category is well formed. -/
theorem branch {c : Category} (h : Derives c.parts t ns rest) (hc : c.isComposite = true)
    (hspells : c.Spells (ns.map Node.spelling).flatten rest) :
    Derives (Phrase.part c) t [Node.branch c ns rest] rest := by
  have hcover : (ns.map Node.spelling).flatten ++ rest = t := h.tiles.flatten_append
  have hformed : (Node.branch c ns rest).Formed :=
    ⟨rfl, h.flatten_ne_nil (Category.nil_notMem_parts hc), fun _ => hcover ▸ h.tiles, h.labels,
      hspells⟩
  refine ⟨Phrase.label_mem_part.mpr rfl, ⟨hcover, rfl⟩, ?_⟩
  intro n hn
  rw [List.mem_singleton] at hn
  exact hn ▸ Node.everywhere_iff.mpr ⟨hformed, h.formed⟩

/-- A leaf that spells what its category allows is well formed. -/
theorem leaf {c : Category} {w : Text} (hc : c.isComposite = false) (hw : w ≠ [])
    (hspells : c.Spells w rest) :
    Derives (Phrase.part c) (w ++ rest) [Node.leaf c w rest] rest := by
  have hformed : (Node.leaf c w rest).Formed := by
    refine ⟨rfl, hw, fun h => absurd rfl h, ?_, hspells⟩
    change [] ∈ c.parts
    rw [Category.parts_eq_one hc]
    rfl
  refine ⟨Phrase.label_mem_part.mpr rfl, ⟨rfl, rfl⟩, ?_⟩
  intro n hn
  rw [List.mem_singleton] at hn
  subst hn
  exact Node.everywhere_iff.mpr ⟨hformed, by simp [Node.leaf]⟩

end Derives

namespace Recognizer

/-- Whether all that a recognizer of several parts finds are phrases of a language. -/
def Yields (r : Recognizer (List Node)) (l : Language Label) : Prop :=
  ∀ t ns rest, r t = .found ns rest → Derives l t ns rest

/-- Whether all that a recognizer of one node finds are phrases of a language. -/
def Finds (r : Recognizer Node) (l : Language Label) : Prop :=
  ∀ t n rest, r t = .found n rest → Derives l t [n] rest

variable {l m : Language Label} {r s : Recognizer Node} {u v : Recognizer (List Node)}
variable {σ : Type}

theorem Finds.mono (h : r.Finds l) (hlm : l ≤ m) : r.Finds m :=
  fun t n rest hr => (h t n rest hr).mono hlm

theorem Yields.mono (h : u.Yields l) (hlm : l ≤ m) : u.Yields m :=
  fun t ns rest hu => (h t ns rest hu).mono hlm

theorem Finds.orElse (hr : r.Finds l) (hs : s.Finds m) : (r.orElse s).Finds (l + m) := by
  intro t n rest h
  rcases orElse_eq_found.mp h with h | ⟨_, h⟩
  · exact (hr t n rest h).mono le_sup_left
  · exact (hs t n rest h).mono le_sup_right

theorem Yields.orElse (hu : u.Yields l) (hv : v.Yields m) : (u.orElse v).Yields (l + m) := by
  intro t ns rest h
  rcases orElse_eq_found.mp h with h | ⟨_, h⟩
  · exact (hu t ns rest h).mono le_sup_left
  · exact (hv t ns rest h).mono le_sup_right

theorem Finds.orFault (h : r.Finds l) (fault : Text → Fault) : (r.orFault fault).Finds l := by
  intro t n rest hr
  rcases orElse_eq_found.mp hr with hr | ⟨_, hr⟩
  · exact h t n rest hr
  · simp at hr

theorem Yields.orFault (h : u.Yields l) (fault : Text → Fault) : (u.orFault fault).Yields l := by
  intro t ns rest hu
  rcases orElse_eq_found.mp hu with hu | ⟨_, hu⟩
  · exact h t ns rest hu
  · simp at hu

theorem Finds.under (h : r.Finds l) (demand : Demand) (c : Category) :
    (r.under demand c).Finds l := by
  cases demand with
  | optional => exact h
  | mandatory => exact h.orFault _

theorem Yields.under (h : u.Yields l) (demand : Demand) (c : Category) :
    (u.under demand c).Yields l := by
  cases demand with
  | optional => exact h
  | mandatory => exact h.orFault _

theorem Finds.one (h : r.Finds l) : r.one.Yields l := by
  intro t ns rest hr
  obtain ⟨n, hn, rfl⟩ := Reading.map_eq_found.mp hr
  exact h t n rest hn

theorem Yields.seq (hu : u.Yields l) (hv : v.Yields m) : (u.seq v).Yields (l * m) := by
  intro t ns rest h
  obtain ⟨as, middle, bs, ha, hb, rfl⟩ := seq_eq_found.mp h
  exact (hu t as middle ha).append (hv middle bs rest hb)

theorem Finds.andThen {parts : Node → Recognizer (List Node)} (hr : r.Finds l)
    (hparts : ∀ n, (parts n).Yields m) : (r.andThen parts).Yields (l * m) := by
  intro t ns rest h
  obtain ⟨n, middle, bs, hn, hb, rfl⟩ := andThen_eq_found.mp h
  exact (hr t n middle hn).append (hparts n middle bs rest hb)

theorem Yields.optional (h : u.Yields l) : (Recognizer.optional u).Yields (Phrase.maybe l) := by
  intro t ns rest hu
  rcases orElse_eq_found.mp hu with hu | ⟨_, hu⟩
  · exact (h t ns rest hu).mono le_sup_right
  · obtain ⟨rfl, rfl⟩ := Reading.found.inj hu
    exact Derives.nil.mono le_sup_left

/-- A repetition that keeps a property of the text in front of it. The property is
what a round may rely on about the place where the round before it ended. -/
theorem repeatUpTo_derives {step : σ → Recognizer (List Node)} {next : σ → Node → σ}
    (inv : Text → Prop)
    (hstep : ∀ s t ns rest, inv t → step s t = .found ns rest → Derives l t ns rest ∧ inv rest)
    {bound : Nat} {s : σ} {t rest : Text} {ns : List Node} (ht : inv t)
    (h : repeatUpTo step next bound s t = .found ns rest) : Derives l∗ t ns rest := by
  induction bound generalizing s t ns with
  | zero =>
      obtain ⟨rfl, rfl⟩ := Reading.found.inj h
      exact Derives.nil.mono one_le_kstar
  | succ bound ih =>
      unfold repeatUpTo at h
      split at h
      next as middle hs =>
        obtain ⟨bs, hb, rfl⟩ := Reading.map_eq_found.mp h
        obtain ⟨ha, hmiddle⟩ := hstep s t as middle ht hs
        exact (ha.append (ih hmiddle hb)).mono mul_kstar_le_kstar
      next =>
        obtain ⟨rfl, rfl⟩ := Reading.found.inj h
        exact Derives.nil.mono one_le_kstar
      next => simp at h

theorem Yields.repeated {step : σ → Recognizer (List Node)} {next : σ → Node → σ} {s : σ}
    (h : ∀ s, (step s).Yields l) : (Recognizer.repeated step next s).Yields l∗ :=
  fun _ _ _ hr => repeatUpTo_derives (fun _ => True)
    (fun s t ns rest _ hs => ⟨h s t ns rest hs, trivial⟩) trivial hr

theorem Yields.many (h : u.Yields l) : u.many.Yields l∗ :=
  Yields.repeated fun _ => h

theorem Yields.node {c : Category} (h : u.Yields c.parts) (hc : c.isComposite = true)
    (hspells : ∀ w rest, c.Spells w rest) : (Recognizer.node c u).Finds (Phrase.part c) := by
  intro t n rest hn
  obtain ⟨ns, hns, rfl⟩ := node_eq_found.mp hn
  exact (h t ns rest hns).chain.branch hc (hspells _ _)

theorem Finds.wrap {c : Category} (h : r.Finds c.parts) (hc : c.isComposite = true)
    (hspells : ∀ w rest, c.Spells w rest) : (Recognizer.wrap c r).Finds (Phrase.part c) :=
  h.one.node hc hspells

theorem refused_finds {opening : Recognizer Node} : (refused opening).Finds l := by
  intro t n rest h
  obtain ⟨_, _, _, h⟩ := Reading.bind_eq_found.mp h
  simp at h

theorem optional_ne_absent (u : Recognizer (List Node)) (t : Text) :
    Recognizer.optional u t ≠ .absent := by
  unfold Recognizer.optional Recognizer.orElse
  cases u t <;> simp

theorem repeatUpTo_ne_absent (step : σ → Recognizer (List Node)) (next : σ → Node → σ)
    (bound : Nat) (s : σ) (t : Text) : repeatUpTo step next bound s t ≠ .absent := by
  induction bound generalizing s t with
  | zero => exact nofun
  | succ bound ih =>
      unfold repeatUpTo
      cases step s t with
      | found ns rest =>
          have hrest := ih (ns.foldl next s) rest
          simp only
          cases hx : repeatUpTo step next bound (ns.foldl next s) rest with
          | absent => exact absurd hx hrest
          | found ms rest => simp
          | broken f => simp
      | absent => simp
      | broken f => simp

theorem many_ne_absent (u : Recognizer (List Node)) (t : Text) : u.many t ≠ .absent :=
  repeatUpTo_ne_absent _ _ _ _ _

theorem seq_ne_absent (hu : ∀ t, u t ≠ .absent) (hv : ∀ t, v t ≠ .absent) (t : Text) :
    u.seq v t ≠ .absent := by
  unfold Recognizer.seq
  cases hut : u t with
  | found ns rest =>
      cases hvt : v rest with
      | absent => exact absurd hvt (hv rest)
      | found ms rest => simp [hvt]
      | broken f => simp [hvt]
  | absent => exact absurd hut (hu t)
  | broken f => simp

section Properties

variable {P : Node → Prop}

/-- Whether all nodes that a recognizer finds have a property. -/
def FindsOnly (r : Recognizer Node) (P : Node → Prop) : Prop :=
  ∀ t n rest, r t = .found n rest → P n

/-- Whether all parts that a recognizer of several parts finds have a property. -/
def YieldsOnly (u : Recognizer (List Node)) (P : Node → Prop) : Prop :=
  ∀ t ns rest, u t = .found ns rest → ∀ n ∈ ns, P n

theorem FindsOnly.orFault (h : r.FindsOnly P) (fault : Text → Fault) :
    (r.orFault fault).FindsOnly P := by
  intro t n rest hr
  rcases orElse_eq_found.mp hr with hr | ⟨_, hr⟩
  · exact h t n rest hr
  · simp at hr

theorem FindsOnly.orElse (hr : r.FindsOnly P) (hs : s.FindsOnly P) :
    (r.orElse s).FindsOnly P := by
  intro t n rest h
  rcases orElse_eq_found.mp h with h | ⟨_, h⟩
  · exact hr t n rest h
  · exact hs t n rest h

theorem FindsOnly.under (h : r.FindsOnly P) (demand : Demand) (c : Category) :
    (r.under demand c).FindsOnly P := by
  cases demand with
  | optional => exact h
  | mandatory => exact h.orFault _

/-- Dropping some of what a recognizer finds leaves nodes with the property. -/
theorem FindsOnly.filter (h : r.FindsOnly P) (keep : Node → Text → Bool) :
    Recognizer.FindsOnly (fun t => (r t).bind fun n rest =>
      if keep n rest then .found n rest else .absent) P := by
  intro t n rest hr
  obtain ⟨m, middle, hm, hr⟩ := Reading.bind_eq_found.mp hr
  split at hr
  · obtain ⟨rfl, rfl⟩ := Reading.found.inj hr
    exact h t m middle hm
  · cases hr

theorem FindsOnly.one (h : r.FindsOnly P) : r.one.YieldsOnly P := by
  intro t ns rest hr
  obtain ⟨n, hn, rfl⟩ := Reading.map_eq_found.mp hr
  exact List.forall_mem_singleton.mpr (h t n rest hn)

theorem YieldsOnly.orElse (hu : u.YieldsOnly P) (hv : v.YieldsOnly P) :
    (u.orElse v).YieldsOnly P := by
  intro t ns rest h
  rcases orElse_eq_found.mp h with h | ⟨_, h⟩
  · exact hu t ns rest h
  · exact hv t ns rest h

theorem YieldsOnly.orFault (h : u.YieldsOnly P) (fault : Text → Fault) :
    (u.orFault fault).YieldsOnly P := by
  intro t ns rest hu
  rcases orElse_eq_found.mp hu with hu | ⟨_, hu⟩
  · exact h t ns rest hu
  · simp at hu

theorem YieldsOnly.under (h : u.YieldsOnly P) (demand : Demand) (c : Category) :
    (u.under demand c).YieldsOnly P := by
  cases demand with
  | optional => exact h
  | mandatory => exact h.orFault _

theorem YieldsOnly.seq (hu : u.YieldsOnly P) (hv : v.YieldsOnly P) : (u.seq v).YieldsOnly P := by
  intro t ns rest h
  obtain ⟨as, middle, bs, ha, hb, rfl⟩ := seq_eq_found.mp h
  exact List.forall_mem_append.mpr ⟨hu t as middle ha, hv middle bs rest hb⟩

theorem FindsOnly.andThen {parts : Node → Recognizer (List Node)} (hr : r.FindsOnly P)
    (hparts : ∀ n, (parts n).YieldsOnly P) : (r.andThen parts).YieldsOnly P := by
  intro t ns rest h
  obtain ⟨n, middle, bs, hn, hb, rfl⟩ := andThen_eq_found.mp h
  exact List.forall_mem_cons.mpr ⟨hr t n middle hn, hparts n middle bs rest hb⟩

theorem YieldsOnly.repeated {step : σ → Recognizer (List Node)} {next : σ → Node → σ} {s : σ}
    (h : ∀ s, (step s).YieldsOnly P) : (Recognizer.repeated step next s).YieldsOnly P := by
  have hbound : ∀ bound s, (repeatUpTo step next bound s).YieldsOnly P := by
    intro bound
    induction bound with
    | zero =>
        intro s t ns rest hr
        obtain ⟨rfl, rfl⟩ := Reading.found.inj hr
        exact List.forall_mem_nil P
    | succ bound ih =>
        intro s t ns rest hr
        unfold repeatUpTo at hr
        split at hr
        next as middle ha =>
          obtain ⟨bs, hb, rfl⟩ := Reading.map_eq_found.mp hr
          exact List.forall_mem_append.mpr ⟨h s t as middle ha, ih _ middle bs rest hb⟩
        next =>
          obtain ⟨rfl, rfl⟩ := Reading.found.inj hr
          exact List.forall_mem_nil P
        next => cases hr
  exact fun t => hbound t.length s t

theorem YieldsOnly.many (h : u.YieldsOnly P) : u.many.YieldsOnly P :=
  YieldsOnly.repeated fun _ => h

theorem YieldsOnly.optional (h : u.YieldsOnly P) : (Recognizer.optional u).YieldsOnly P := by
  intro t ns rest hu
  rcases orElse_eq_found.mp hu with hu | ⟨_, hu⟩
  · exact h t ns rest hu
  · obtain ⟨rfl, rfl⟩ := Reading.found.inj hu
    exact List.forall_mem_nil P

theorem refused_findsOnly {opening : Recognizer Node} : (refused opening).FindsOnly P := by
  intro t n rest h
  obtain ⟨_, _, _, h⟩ := Reading.bind_eq_found.mp h
  cases h

end Properties

end Recognizer

end QueryTree
