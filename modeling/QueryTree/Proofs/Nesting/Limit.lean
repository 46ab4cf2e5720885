import QueryTree.Proofs.Derivation.Ahead
import QueryTree.Proofs.Nesting.Levels

/-!
# Reading under a limit

A text is read once with few levels of nesting left and once with more. Either both
readings come out the same, and what they find keeps to the smaller limit, or the first
gives up for lack of levels, and then the second does not do without them: it finds
something deeper than the smaller limit, or it breaks off.
-/

namespace QueryTree

open Recognizer Grammar

namespace Reading

variable {α β : Type} {k k' : Nat} {depth : α → Nat} {depth' : β → Nat}

/-- Whether a reading has found something deeper than `k`, or has broken off. -/
inductive IsDeep (k : Nat) (depth : α → Nat) : Reading α → Prop where
  | found {a : α} (h : k < depth a) (rest : Text) : IsDeep k depth (.found a rest)
  | broken (f : Fault) : IsDeep k depth (.broken f)

/-- Whether a reading with `k` levels left stands to a reading with more levels as described
above. -/
inductive Limited (k : Nat) (depth : α → Nat) : Reading α → Reading α → Prop where
  | same {x : Reading α} (h : ∀ a rest, x = .found a rest → depth a ≤ k) : Limited k depth x x
  | refused {y : Reading α} (place : Text) (h : y.IsDeep k depth) :
      Limited k depth (.broken (.tooDeep place)) y

theorem Limited.absent : Limited k depth .absent .absent :=
  .same nofun

theorem Limited.broken (f : Fault) : Limited k depth (.broken f) (.broken f) :=
  .same nofun

theorem Limited.found {a : α} (h : depth a ≤ k) (rest : Text) :
    Limited k depth (.found a rest) (.found a rest) :=
  .same fun _ _ hx => (Reading.found.inj hx).1 ▸ h

/-- A reading that keeps to a limit beside itself finds nothing deeper. -/
theorem Limited.le_of_found {a : α} {rest : Text}
    (h : Limited k depth (.found a rest) (.found a rest)) : depth a ≤ k := by
  generalize hx : Reading.found a rest = x at h
  cases h with
  | same h => exact h a rest hx.symm
  | refused => cases hx

theorem IsDeep.bind {y : Reading α} {next : α → Recognizer β} (h : y.IsDeep k depth)
    (hnext : ∀ a rest, y = .found a rest → k < depth a → (next a rest).IsDeep k' depth') :
    (y.bind next).IsDeep k' depth' := by
  cases h with
  | found h rest => exact hnext _ rest rfl h
  | broken f => exact .broken f

theorem Limited.bind {x y : Reading α} {next next' : α → Recognizer β}
    (h : Limited k depth x y)
    (hnext : ∀ a rest, x = .found a rest → depth a ≤ k →
      Limited k' depth' (next a rest) (next' a rest))
    (hdeep : ∀ a rest, y = .found a rest → k < depth a →
      (next' a rest).IsDeep k' depth') :
    Limited k' depth' (x.bind next) (y.bind next') := by
  cases h with
  | same h =>
      cases x with
      | found a rest => exact hnext a rest rfl (h a rest rfl)
      | absent => exact .absent
      | broken f => exact .broken f
  | refused place h => exact .refused place (h.bind hdeep)

theorem Limited.orElse {r r' s s' : Recognizer α} {t : Text}
    (hr : Limited k depth (r t) (r' t)) (hs : Limited k depth (s t) (s' t)) :
    Limited k depth (r.orElse s t) (r'.orElse s' t) := by
  unfold Recognizer.orElse
  generalize r t = x at hr ⊢
  generalize r' t = y at hr ⊢
  cases hr with
  | same h =>
      cases x with
      | found a rest => exact .same h
      | absent => exact hs
      | broken f => exact .broken f
  | refused place h =>
      cases h with
      | found h rest => exact .refused place (.found h rest)
      | broken f => exact .refused place (.broken f)

end Reading

namespace Recognizer

/-- Whether a recognizer with `k` levels left for its nodes, which are parts of a node of
the category `above`, stands to one with more levels as described above. -/
def Limits (k : Nat) (above : Category) (r s : Recognizer Node) : Prop :=
  ∀ t, (r t).Limited k (Node.deepest opensLevel above) (s t)

/-- The same for recognizers of several parts. -/
def LimitsAll (k : Nat) (above : Category) (u v : Recognizer (List Node)) : Prop :=
  ∀ t, (u t).Limited k (Node.deepestAll opensLevel above) (v t)

variable {σ : Type} {k : Nat} {above : Category} {r s r' s' : Recognizer Node}
variable {u v u' v' : Recognizer (List Node)}

theorem Limits.orElse (hr : r.Limits k above r') (hs : s.Limits k above s') :
    (r.orElse s).Limits k above (r'.orElse s') :=
  fun t => (hr t).orElse (hs t)

theorem Limits.required (hr : r.Limits k above r') (c : Category) :
    (r.required c).Limits k above (r'.required c) :=
  hr.orElse fun t => .broken (.expected c t)

/-- A recognizer that knows nothing of levels keeps to every limit if what it finds does. -/
theorem Limits.of_finds {l : Language Label} (hr : r.Finds l)
    (h : ∀ n : Node, n.Everywhere Node.Formed → [n.label] ∈ l →
      n.deepest opensLevel above ≤ k) : r.Limits k above r := by
  intro t
  refine .same fun n rest hn => ?_
  have hderives := hr t n rest hn
  exact h n (hderives.formed n List.mem_cons_self) hderives.labels

theorem Limits.of_flat {c : Category} (hr : r.Finds (Phrase.part c)) (hc : c.isFlat = true)
    (habove : above = .command → c ≠ .symbol) : r.Limits k above r := by
  refine .of_finds hr fun n hn hlabel => ?_
  obtain rfl := Phrase.label_mem_part.mp hlabel
  rw [hn.deepest_eq_zero hc habove]
  exact Nat.zero_le k

theorem Limits.one (hr : r.Limits k above r') : r.one.LimitsAll k above r'.one := by
  intro t
  refine (hr t).bind (fun n rest _ hn => .found ?_ rest) (fun n rest _ hn => .found ?_ rest)
  · rwa [Node.deepestAll_cons, Node.deepestAll_nil, Nat.max_zero]
  · rwa [Node.deepestAll_cons, Node.deepestAll_nil, Nat.max_zero]

theorem limited_nil (t : Text) :
    (Reading.found [] t).Limited k (Node.deepestAll opensLevel above) (.found [] t) := by
  have hnil : Node.deepestAll opensLevel above [] ≤ k := Nat.zero_le k
  exact .found hnil t

theorem LimitsAll.optional (hu : u.LimitsAll k above u') :
    (Recognizer.optional u).LimitsAll k above (Recognizer.optional u') :=
  fun t => (hu t).orElse (limited_nil t)

/-- More parts after something deep leave it deep, unless they are absent. -/
theorem isDeep_map_append {ns : List Node} (hns : k < Node.deepestAll opensLevel above ns)
    {x : Reading (List Node)} (hx : x ≠ .absent) :
    (x.map fun ms => ns ++ ms).IsDeep k (Node.deepestAll opensLevel above) := by
  cases x with
  | found ms rest =>
      refine .found ?_ rest
      rw [Node.deepestAll_append]
      exact lt_max_of_lt_left hns
  | absent => exact absurd rfl hx
  | broken f => exact .broken f

theorem limited_map_append {ns : List Node} (hns : Node.deepestAll opensLevel above ns ≤ k)
    {x y : Reading (List Node)} (h : x.Limited k (Node.deepestAll opensLevel above) y) :
    (x.map fun ms => ns ++ ms).Limited k (Node.deepestAll opensLevel above)
      (y.map fun ms => ns ++ ms) := by
  refine h.bind (fun ms rest _ hms => .found ?_ rest) (fun ms rest _ hms => .found ?_ rest)
  · rw [Node.deepestAll_append]
    exact max_le hns hms
  · rw [Node.deepestAll_append]
    exact lt_max_of_lt_right hms

/-- A sequence keeps to a limit if its parts do. After something deep the second part must
not be absent, for then the sequence would be. -/
theorem LimitsAll.seq (hu : u.LimitsAll k above u') (hv : v.LimitsAll k above v')
    (hpresent : ∀ t ns rest, u' t = .found ns rest → k < Node.deepestAll opensLevel above ns →
      v' rest ≠ .absent) : (u.seq v).LimitsAll k above (u'.seq v') :=
  fun t => (hu t).bind (fun _ rest _ hns => limited_map_append hns (hv rest))
    fun ns rest hfound hns => isDeep_map_append hns (hpresent t ns rest hfound hns)

/-- What keeps to a limit beside itself finds nothing deeper. -/
theorem LimitsAll.not_deep (hu : u.LimitsAll k above u) {t rest : Text} {ns : List Node}
    (h : u t = .found ns rest) : ¬k < Node.deepestAll opensLevel above ns := by
  have hself := hu t
  rw [h] at hself
  exact Nat.not_lt.mpr hself.le_of_found

theorem Limits.andThen {parts parts' : Node → Recognizer (List Node)}
    (hr : r.Limits k above r) (hparts : ∀ n, (parts n).LimitsAll k above (parts' n)) :
    (r.andThen parts).LimitsAll k above (r.andThen parts') := by
  intro t
  refine (hr t).bind (fun n rest _ hn => ?_) (fun n rest hn hdeep => ?_)
  · have hns : Node.deepestAll opensLevel above [n] ≤ k := by
      rwa [Node.deepestAll_cons, Node.deepestAll_nil, Nat.max_zero]
    exact limited_map_append hns (hparts n rest)
  · have hself := hr t
    rw [hn] at hself
    exact absurd hself.le_of_found (Nat.not_le.mpr hdeep)

theorem LimitsAll.repeated {step step' : σ → Recognizer (List Node)} {next : σ → Node → σ}
    (hstep : ∀ s, (step s).LimitsAll k above (step' s)) (s : σ) :
    (Recognizer.repeated step next s).LimitsAll k above
      (Recognizer.repeated step' next s) := by
  have hrounds : ∀ bound s t,
      (repeatUpTo step next bound s t).Limited k (Node.deepestAll opensLevel above)
        (repeatUpTo step' next bound s t) := by
    intro bound
    induction bound with
    | zero => exact fun _ t => limited_nil t
    | succ bound ih =>
        intro s t
        have hround := hstep s t
        unfold repeatUpTo
        generalize step s t = x at hround ⊢
        generalize step' s t = y at hround ⊢
        cases hround with
        | same h =>
            cases x with
            | found ns rest => exact limited_map_append (h ns rest rfl) (ih _ rest)
            | absent => exact limited_nil t
            | broken f => exact .broken f
        | refused place h =>
            cases h with
            | found h rest =>
                exact .refused place (isDeep_map_append h (repeatUpTo_ne_absent _ _ _ _ _))
            | broken f => exact .refused place (.broken f)
  exact fun t => hrounds t.length s t

end Recognizer

namespace Grammar

variable {k l : Nat} {above : Category} {r s : Recognizer Node}

theorem spaced_limits (h : r.Limits k above s) :
    (Grammar.spaced r).LimitsAll k above (Grammar.spaced s) := by
  have hgap : whitespace.Limits k above whitespace :=
    .of_flat whitespace_finds rfl fun _ => by decide
  exact hgap.one.optional.seq h.one fun _ _ _ hns hdeep =>
    absurd hdeep (hgap.one.optional.not_deep hns)

section Items

theorem collection_finds (room : Nat) :
    ((arrayLiteral room).orElse (mapLiteral room)).Finds
      (Phrase.part .arrayLiteral + Phrase.part .mapLiteral) :=
  (arrayLiteral_finds room).orElse (mapLiteral_finds room)

theorem deepest_of_collection {room : Nat} {t rest : Text} {n : Node}
    (h : (arrayLiteral room).orElse (mapLiteral room) t = .found n rest) :
    n.deepest opensLevel above = 1 := by
  have hderives := collection_finds room t n rest h
  exact (hderives.formed n List.mem_cons_self).deepest_collection
    (hderives.labels.imp Phrase.label_mem_part.mp Phrase.label_mem_part.mp)

theorem deepest_of_selector {role : Category} (hrole : IsRole role) {t rest : Text} {n : Node}
    (h : selector role t = .found n rest) : n.deepest opensLevel above = 0 := by
  have hderives := selector_finds hrole t n rest h
  have hcategory : IsRole n.category :=
    hderives.labels.elim (fun h => Phrase.label_mem_part.mp h ▸ hrole)
      fun h => Or.inr (Or.inr (Phrase.label_mem_part.mp h))
  refine (hderives.formed n List.mem_cons_self).deepest_eq_zero ?_ fun _ => ?_
  · rcases hcategory with hc | hc | hc <;> rw [hc] <;> rfl
  · rcases hcategory with hc | hc | hc <;> rw [hc] <;> decide

theorem deepest_of_symbol {x : Char} {t rest : Text} {n : Node}
    (h : symbol (x :: t) = .found n rest) :
    n.deepest opensLevel .command = if x = '[' ∨ x = '\x7b' then 1 else 0 := by
  obtain ⟨y, _, hxt, rfl⟩ := single_eq_found.mp h
  obtain ⟨rfl, rfl⟩ := List.cons.inj hxt
  rw [Node.deepest_eq]
  split
  next hx => rcases hx with rfl | rfl <;> rfl
  next hx =>
    obtain ⟨hbracket, hbrace⟩ := not_or.mp hx
    simp [opensLevel, Node.label, Node.leaf, Category.isNested, hbracket, hbrace]

/-- What begins with the opening delimiter of a collection is an item of a command in any
case, a symbol if nothing else, and it takes up a level. -/
theorem plainItem_bracket {x : Char} (hx : x = '[' ∨ x = '\x7b') (room : Nat) (role : Category)
    (t : Text) :
    (plainItem room role (x :: t)).IsDeep 0 (Node.deepest opensLevel .command) := by
  cases hcollection : (arrayLiteral room).orElse (mapLiteral room) (x :: t) with
  | found n rest =>
      rw [plainItem, orElse_of_found (orElse_of_found hcollection)]
      exact .found (by rw [deepest_of_collection hcollection]; exact Nat.one_pos) rest
  | broken f =>
      rw [plainItem, orElse_of_broken (orElse_of_broken hcollection)]
      exact .broken f
  | absent =>
      have hselector : selector role (x :: t) = .absent :=
        selector_eq_absent role fun y hy => by
          obtain rfl := Option.some.inj hy
          rcases hx with rfl | rfl <;> decide
      have hsymbol : symbol (x :: t) = .found (Node.leaf .symbol [x] t) t :=
        symbol_cons (by rcases hx with rfl | rfl <;> decide) t
      rw [plainItem, orElse_of_absent ((orElse_of_absent hcollection).trans hselector), hsymbol]
      exact .found (by rw [deepest_of_symbol hsymbol, if_pos hx]; exact Nat.one_pos) t

/-- With no level left an item that begins with the opening delimiter is refused. -/
theorem plainItem_zero_bracket {x : Char} (hx : x = '[' ∨ x = '\x7b') (role : Category)
    (t : Text) : plainItem 0 role (x :: t) = .broken (.tooDeep (x :: t)) := by
  have hcollection : (arrayLiteral 0).orElse (mapLiteral 0) (x :: t) =
      .broken (.tooDeep (x :: t)) := by
    rcases hx with rfl | rfl
    · exact orElse_of_broken (refused_of_found (delimiter_cons '[' .arrayStart t))
    · exact (orElse_of_absent (arrayLiteral_eq_absent 0 (by simp))).trans
        (refused_of_found (delimiter_cons '\x7b' .mapStart t))
  rw [plainItem, orElse_of_broken (orElse_of_broken hcollection)]

/-- Where no collection is opened, an item does not depend on the levels left. -/
theorem plainItem_other {t : Text} (h : ∀ x ∈ t.head?, ¬(x = '[' ∨ x = '\x7b')) (room : Nat)
    (role : Category) : plainItem room role t = (selector role).orElse symbol t := by
  have harray : arrayLiteral room t = .absent :=
    arrayLiteral_eq_absent room fun ht => h _ ht (Or.inl rfl)
  have hmap : mapLiteral room t = .absent :=
    mapLiteral_eq_absent room fun ht => h _ ht (Or.inr rfl)
  unfold plainItem Recognizer.orElse
  simp only [harray, hmap]

theorem deepest_of_plainItem {room : Nat} {role : Category} (hrole : IsRole role)
    {t rest : Text} {n : Node} (h : plainItem room role t = .found n rest) :
    n.deepest opensLevel .command ≤ 1 := by
  rcases orElse_eq_found.mp h with h | ⟨_, h⟩
  · rcases orElse_eq_found.mp h with h | ⟨_, h⟩
    · exact (deepest_of_collection h).le
    · exact (deepest_of_selector hrole h).trans_le zero_le_one
  · cases t with
    | nil => cases h
    | cons x t =>
        rw [deepest_of_symbol h]
        split
        · exact le_rfl
        · exact zero_le_one

theorem plainItem_limits (hkl : k ≤ l) {role : Category} (hrole : IsRole role) :
    (plainItem k role).Limits k .command (plainItem l role) := by
  intro t
  by_cases ht : ∀ x ∈ t.head?, ¬(x = '[' ∨ x = '\x7b')
  · rw [plainItem_other ht, plainItem_other ht]
    refine .same fun n rest hn => ?_
    rcases orElse_eq_found.mp hn with hn | ⟨_, hn⟩
    · exact (deepest_of_selector hrole hn).trans_le (Nat.zero_le k)
    · cases t with
      | nil => cases hn
      | cons x t =>
          rw [deepest_of_symbol hn, if_neg (ht x rfl)]
          exact Nat.zero_le k
  · obtain ⟨x, t, rfl, hx⟩ : ∃ x u, t = x :: u ∧ (x = '[' ∨ x = '\x7b') := by
      cases t with
      | nil => simp at ht
      | cons x t => exact ⟨x, t, rfl, by simpa [or_iff_not_imp_left] using ht⟩
    cases k with
    | zero =>
        rw [plainItem_zero_bracket hx]
        exact .refused _ (plainItem_bracket hx l role t)
    | succ k =>
        -- A collection looks at no more than whether a level is left.
        obtain ⟨l, rfl⟩ := Nat.exists_eq_add_of_le' (Nat.one_le_of_lt hkl)
        have hsame : plainItem (l + 1) role = plainItem (k + 1) role := rfl
        rw [hsame]
        exact .same fun n rest hn =>
          (deepest_of_plainItem hrole hn).trans (Nat.le_add_left 1 k)

theorem commandItem_limits (hkl : k ≤ l) (context : NameContext) :
    (commandItem k context).Limits k .command (commandItem l context) := by
  have hplain := plainItem_limits hkl context.isRole_role
  unfold commandItem
  split
  · have hwords : reservedWordSequence.Limits k .command reservedWordSequence :=
      .of_flat reservedWordSequence_finds rfl fun _ => by decide
    exact hwords.orElse hplain
  · intro t
    unfold otherThan
    cases leadingWord t with
    | found n rest => exact .absent
    | absent => exact hplain t
    | broken f => exact .broken f

end Items

section Commands

theorem deepest_command (ns : List Node) (rest : Text) :
    (Node.branch .command (Node.chain ns) rest).deepest opensLevel above =
      1 + Node.deepestAll opensLevel .command ns := by
  rw [Node.deepest_eq]
  exact congrArg (1 + ·) (Node.deepestAll_chain ns)

theorem commandNode_limits {u v : Recognizer (List Node)} (h : u.LimitsAll k .command v) :
    (node .command u).Limits (k + 1) above (node .command v) := by
  intro t
  refine (h t).bind (fun ns rest _ hns => .found ?_ rest) (fun ns rest _ hns => .found ?_ rest)
  · rw [deepest_command]
    omega
  · rw [deepest_command]
    omega

theorem commandItems_limits (hkl : k ≤ l) (words : List Keyword) :
    (commandItems k words).LimitsAll k .command (commandItems l words) :=
  .repeated (fun context => spaced_limits (commandItem_limits hkl context)) _

theorem commandItems_ne_absent (room : Nat) (words : List Keyword) (t : Text) :
    commandItems room words t ≠ .absent :=
  repeatUpTo_ne_absent _ _ _ _ _

/-- A command that has its keywords goes on to its end or breaks off. -/
theorem command_isDeep {t after : Text} {words : Node} (room : Nat)
    (h : reservedWordSequence t = .found words after) :
    (command room t).IsDeep 0 (Node.deepest opensLevel above) := by
  cases room with
  | zero =>
      rw [command_zero, refused_of_found h]
      exact .broken _
  | succ room =>
      rw [command_succ, node, andThen, h, Reading.bind_found]
      generalize hparts : ((commandItems room (keywordsOf words)).seq
        (Recognizer.optional (Grammar.spaced (command room)))) after = x
      cases x with
      | found ns rest =>
          refine .found ?_ rest
          rw [deepest_command]
          exact Nat.add_pos_left Nat.one_pos _
      | broken f => exact .broken f
      | absent =>
          exact absurd hparts (seq_ne_absent (commandItems_ne_absent room _)
            (optional_ne_absent _) after)

/-- A command reads its keywords first, whatever the levels left. -/
theorem command_eq_bind (room : Nat) (t : Text) :
    ∃ next, command room t = (reservedWordSequence t).bind next := by
  cases room with
  | zero => exact ⟨_, rfl⟩
  | succ room => exact ⟨_, Reading.bind_assoc _ _ _⟩

theorem command_limits (hkl : k ≤ l) : (command k).Limits k above (command l) := by
  induction k generalizing l above with
  | zero =>
      intro t
      obtain ⟨next, hnext⟩ := command_eq_bind 0 t
      obtain ⟨next', hnext'⟩ := command_eq_bind l t
      cases hwords : reservedWordSequence t with
      | found words after =>
          rw [command_zero, refused_of_found hwords]
          exact .refused t (command_isDeep l hwords)
      | absent =>
          rw [hnext, hnext', hwords]
          exact .absent
      | broken f =>
          rw [hnext, hnext', hwords]
          exact .broken f
  | succ k ih =>
      obtain ⟨l, rfl⟩ := Nat.exists_eq_add_of_le' (Nat.one_le_of_lt hkl)
      have hkl : k ≤ l := Nat.le_of_succ_le_succ hkl
      have hwords : reservedWordSequence.Limits k .command reservedWordSequence :=
        .of_flat reservedWordSequence_finds rfl fun _ => by decide
      exact commandNode_limits (hwords.andThen fun words =>
        (commandItems_limits hkl (keywordsOf words)).seq (spaced_limits (ih hkl)).optional
          fun _ _ rest _ _ => optional_ne_absent _ rest)

end Commands

section Statements

theorem condition_limits : condition.Limits k above condition :=
  .of_flat condition_finds rfl fun _ => by decide

theorem statementParts_limits (hkl : k ≤ l) :
    (statementParts k).LimitsAll k .statement (statementParts l) := by
  have hspace : whitespace.Limits k .statement whitespace :=
    .of_flat whitespace_finds rfl fun _ => by decide
  have hend : terminator.Limits k .statement terminator :=
    .of_flat terminator_finds rfl fun _ => by decide
  have hcommand : (command k).Limits k .statement (command l) := command_limits hkl
  have htrailing := ((spaced_limits condition_limits).seq
    (spaced_limits hcommand).optional fun _ _ rest _ _ => optional_ne_absent _ rest).optional
  exact (((hspace.one.optional.seq (hcommand.required _).one
    fun t _ _ hns hdeep => absurd hdeep (hspace.one.optional.not_deep hns)).seq htrailing
    fun _ _ rest _ _ => optional_ne_absent _ rest).seq (spaced_limits hend).optional
    fun _ _ rest _ _ => optional_ne_absent _ rest).seq hspace.one.optional
    fun _ _ rest _ _ => optional_ne_absent _ rest

theorem levels_statement (ns : List Node) (rest : Text) :
    (Node.branch .statement ns rest).levels = Node.deepestAll opensLevel .statement ns := by
  rw [Node.levels, Node.deepest_eq]
  exact Nat.zero_add _

/-- A statement under a limit beside the same statement under a wider limit. -/
theorem statement_limits (hkl : k ≤ l) (t : Text) :
    (statement k t).Limited k Node.levels (statement l t) := by
  refine (statementParts_limits hkl t).bind (fun ns rest _ hns => ?_) (fun ns rest _ hns => ?_)
  · split
    · exact .found ((levels_statement ns rest).trans_le hns) rest
    · exact .broken _
  · split
    · exact .found (hns.trans_eq (levels_statement ns rest).symm) rest
    · exact .broken _

end Statements

end Grammar

end QueryTree
