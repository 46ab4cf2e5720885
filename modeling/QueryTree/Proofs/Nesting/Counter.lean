import QueryTree.Grammar.Production

/-!
# Counting the open levels

A recognizer of commands or collections is told how many levels of nesting are left. The
same reading can be done with a single counter of the levels that are open: a level is
opened by raising the counter, unless it has reached the limit, and closed by lowering it
again, however the reading between them ends. Such a counted recognizer reads what the
recognizer reads that is told of the levels left, and leaves the counter where it was.

## Implementation notes

The counter alone decides how deep commands nest. The recursion over nested commands has a
bound of its own, as a repetition has, and every bound beyond the limit gives the same.
-/

namespace QueryTree

/-- A recognizer that is given the number of open levels and leaves one behind. -/
abbrev Counted (α : Type) := Text → Nat → Reading α × Nat

namespace Counted

open Recognizer

section Combinators

variable {α β σ : Type}

/-- A recognizer that opens no level. -/
def ofRecognizer (r : Recognizer α) : Counted α := fun t depth => (r t, depth)

/-- Continues with what was found. -/
def bind (k : Counted α) (next : α → Counted β) : Counted β := fun t depth =>
  match k t depth with
  | (.found value rest, depth) => next value rest depth
  | (.absent, depth) => (.absent, depth)
  | (.broken fault, depth) => (.broken fault, depth)

/-- Changes the value that was found. -/
def map (f : α → β) (k : Counted α) : Counted β :=
  k.bind fun value => ofRecognizer fun rest => .found (f value) rest

/-- Tries the second recognizer where the first is absent. -/
def orElse (k l : Counted α) : Counted α := fun t depth =>
  match k t depth with
  | (.absent, depth) => l t depth
  | outcome => outcome

/-- A production that has to be there. -/
def required (c : Category) (k : Counted α) : Counted α :=
  k.orElse (ofRecognizer fun t => .broken (.expected c t))

/-- A node as the only part. -/
def one (k : Counted Node) : Counted (List Node) :=
  k.map fun n => [n]

/-- A node as the first part, and more parts that depend on it. -/
def andThen (k : Counted Node) (parts : Node → Counted (List Node)) : Counted (List Node) :=
  k.bind fun n => (parts n).map fun ns => n :: ns

/-- The parts of the first recognizer, then those of the second. -/
def seq (k l : Counted (List Node)) : Counted (List Node) :=
  k.bind fun ns => l.map fun ms => ns ++ ms

/-- The parts of a recognizer if it finds them, and none otherwise. -/
def optional (k : Counted (List Node)) : Counted (List Node) :=
  k.orElse (ofRecognizer fun t => .found [] t)

/-- Repeats for at most `bound` rounds. -/
def repeatUpTo (step : σ → Counted (List Node)) (next : σ → Node → σ) :
    Nat → σ → Counted (List Node)
  | 0, _, t, depth => (.found [] t, depth)
  | bound + 1, s, t, depth =>
    match step s t depth with
    | (.found ns rest, depth) =>
      (repeatUpTo step next bound (ns.foldl next s)).map (fun ms => ns ++ ms) rest depth
    | (.absent, depth) => (.found [] t, depth)
    | (.broken fault, depth) => (.broken fault, depth)

/-- Repeats for as long as there is something to read. -/
def repeated (step : σ → Counted (List Node)) (next : σ → Node → σ) (s : σ) :
    Counted (List Node) := fun t =>
  repeatUpTo step next t.length s t

/-- A production whose parts are linked to their neighbours. -/
def node (c : Category) (parts : Counted (List Node)) : Counted Node :=
  parts.bind fun ns => ofRecognizer fun rest => .found (Node.branch c (Node.chain ns) rest) rest

/-- A node after optional whitespace. -/
def spaced (k : Counted Node) : Counted (List Node) :=
  (ofRecognizer (Recognizer.optional Grammar.whitespace.one)).seq k.one

/-- Opens a level for a production that begins at `start`, and closes it however the
reading ends. At the limit the level is refused. -/
def entered (limit : Nat) (start : Text) (k : Counted α) : Counted α := fun t depth =>
  if limit < depth + 1 then (.broken (.tooDeep start), depth)
  else
    let (reading, depth) := k t (depth + 1)
    (reading, depth - 1)

end Combinators

section Productions

variable (limit : Nat)

/-- A collection. Its level is opened after the opening delimiter. -/
def collection (demand : Demand) (c : Category) (opening first next : Recognizer Node)
    (closing : Char) (finish : Category) : Counted Node := fun t =>
  node c ((ofRecognizer (opening.under demand c)).andThen fun _ =>
    entered limit t (ofRecognizer
      ((Grammar.elements first next (Grammar.delimiter closing finish)
        fun rest => .unterminated c closing (.start rest)).orFaultUnder demand
          fun _ => .expected c t))) t

def arrayLiteral (demand : Demand) : Counted Node :=
  collection limit demand .arrayLiteral (Grammar.delimiter '[' .arrayStart)
    Grammar.selectorItem (Grammar.selectorItem.required .selectorItem) ']' .arrayEnd

def mapLiteral (demand : Demand) : Counted Node :=
  collection limit demand .mapLiteral (Grammar.delimiter '\x7b' .mapStart)
    (Grammar.mapEntry .optional) (Grammar.mapEntry .mandatory) '\x7d' .mapEnd

/-- An item of a command that is not a keyword. -/
def plainItem (role : Category) : Counted Node :=
  (((arrayLiteral limit .optional).orElse (mapLiteral limit .optional)).orElse
    (ofRecognizer (Grammar.selector role))).orElse (ofRecognizer Grammar.symbol)

/-- Absent where `stop` finds something, and `k` elsewhere. -/
def otherThan (stop : Recognizer Node) (k : Counted Node) : Counted Node := fun t depth =>
  match stop t with
  | .found _ _ => (.absent, depth)
  | .absent => k t depth
  | .broken fault => (.broken fault, depth)

/-- An item of a command. -/
def commandItem (context : Grammar.NameContext) : Counted Node :=
  if context.inList then
    (ofRecognizer Grammar.reservedWordSequence).orElse (plainItem limit context.role)
  else otherThan Grammar.leadingWord (plainItem limit context.role)

/-- The items of a command. -/
def commandItems (words : List Keyword) : Counted (List Node) :=
  repeated (fun context => spaced (commandItem limit context)) Grammar.NameContext.after
    (.ofKeywords words)

/-- A command that goes on with `nested`. Its level is opened after its keywords. -/
def commandOver (demand : Demand) (nested : Counted Node) : Counted Node := fun t =>
  node .command ((ofRecognizer (Grammar.reservedWordSequence.under demand .command)).andThen
    fun words => entered limit t
      ((commandItems limit (Grammar.keywordsOf words)).seq (optional (spaced nested)))) t

/-- A command with at most `bound` commands nested in it. -/
def command (demand : Demand) : Nat → Counted Node
  | 0 => commandOver limit demand (ofRecognizer fun _ => .absent)
  | bound + 1 => commandOver limit demand (command .optional bound)

/-- A statement that covers all of the text. -/
def statement : Counted Node :=
  let space := ofRecognizer (Recognizer.optional Grammar.whitespace.one)
  let clause := optional (spaced (command limit .optional limit))
  let condition := (ofRecognizer (Grammar.spaced Grammar.condition)).seq clause
  let terminator := ofRecognizer (Recognizer.optional (Grammar.spaced Grammar.terminator))
  let parts := (((space.seq (one (required .command (command limit .optional limit)))).seq
    (optional condition)).seq terminator).seq space
  parts.bind fun ns => ofRecognizer fun rest =>
    if rest.isEmpty then .found (Node.branch .statement ns rest) rest
    else .broken (.trailing rest)

/-- A production under a demand. Only commands, collections and what holds them open levels. -/
def ofProduction (demand : Demand) : Production → Counted Node
  | .string => ofRecognizer (Grammar.stringUnder demand)
  | .reservedWordSequence => ofRecognizer (Grammar.reservedWordSequenceUnder demand)
  | .itemNameCaseInsensitive => ofRecognizer (Grammar.itemNameCaseInsensitiveUnder demand)
  | .itemNameCaseSensitive => ofRecognizer (Grammar.itemNameCaseSensitiveUnder demand)
  | .itemName => ofRecognizer (Grammar.itemNameUnder demand)
  | .literal => ofRecognizer (Grammar.literalUnder demand)
  | .selectorItem => ofRecognizer (Grammar.selectorItemUnder demand)
  | .arrayLiteral => arrayLiteral limit demand
  | .mapLiteral => mapLiteral limit demand
  | .command => command limit demand limit
  | .condition => ofRecognizer (Grammar.conditionUnder demand)
  | .conditionChain => ofRecognizer (Grammar.conditionChain demand)
  | .conditionItem => ofRecognizer (Grammar.conditionItemUnder demand)
  | .statement => statement limit
  | p => ofRecognizer ((p.offered limit).under demand p.category)

end Productions

/-- Whether a counted recognizer reads what `r` reads while `depth` levels are open, and
leaves as many open, whatever the outcome is. -/
def Keeps {α : Type} (depth : Nat) (k : Counted α) (r : Recognizer α) : Prop :=
  ∀ t, k t depth = (r t, depth)

namespace Keeps

variable {α β σ : Type} {depth limit room : Nat}

theorem ofRecognizer (r : Recognizer α) : Keeps depth (.ofRecognizer r) r :=
  fun _ => rfl

theorem bind {k : Counted α} {r : Recognizer α} {next : α → Counted β}
    {next' : α → Recognizer β} (hk : Keeps depth k r)
    (hnext : ∀ a, Keeps depth (next a) (next' a)) :
    Keeps depth (k.bind next) fun t => (r t).bind next' := by
  intro t
  change _ = ((r t).bind next', depth)
  rw [Counted.bind, hk t]
  cases r t with
  | found a rest => exact hnext a rest
  | absent => rfl
  | broken fault => rfl

theorem map {k : Counted α} {r : Recognizer α} (hk : Keeps depth k r) (f : α → β) :
    Keeps depth (k.map f) fun t => (r t).map f :=
  hk.bind fun _ => ofRecognizer _

theorem orElse {k l : Counted α} {r s : Recognizer α} (hk : Keeps depth k r)
    (hl : Keeps depth l s) : Keeps depth (k.orElse l) (r.orElse s) := by
  intro t
  rw [Counted.orElse, Recognizer.orElse, hk t]
  cases r t with
  | found a rest => rfl
  | absent => exact hl t
  | broken fault => rfl

theorem required {k : Counted α} {r : Recognizer α} (hk : Keeps depth k r) (c : Category) :
    Keeps depth (k.required c) (r.required c) :=
  hk.orElse (ofRecognizer _)

section Parts

variable {k l : Counted (List Node)} {q : Counted Node} {r s : Recognizer (List Node)}
  {p : Recognizer Node}

theorem one (hq : Keeps depth q p) : Keeps depth q.one p.one :=
  hq.map _

theorem andThen {parts : Node → Counted (List Node)} {parts' : Node → Recognizer (List Node)}
    (hq : Keeps depth q p) (hparts : ∀ n, Keeps depth (parts n) (parts' n)) :
    Keeps depth (q.andThen parts) (p.andThen parts') :=
  hq.bind fun n => (hparts n).map _

theorem seq (hk : Keeps depth k r) (hl : Keeps depth l s) :
    Keeps depth (k.seq l) (r.seq s) :=
  hk.bind fun _ => hl.map _

theorem optional (hk : Keeps depth k r) : Keeps depth k.optional (Recognizer.optional r) :=
  hk.orElse (ofRecognizer _)

theorem node (hk : Keeps depth k r) (c : Category) :
    Keeps depth (Counted.node c k) (Recognizer.node c r) :=
  hk.bind fun _ => ofRecognizer _

theorem spaced (hq : Keeps depth q p) : Keeps depth q.spaced (Grammar.spaced p) :=
  (ofRecognizer _).seq hq.one

theorem repeated {step : σ → Counted (List Node)} {step' : σ → Recognizer (List Node)}
    {next : σ → Node → σ} (hstep : ∀ s, Keeps depth (step s) (step' s)) (s : σ) :
    Keeps depth (Counted.repeated step next s) (Recognizer.repeated step' next s) := by
  have hrounds : ∀ bound s, Keeps depth (Counted.repeatUpTo step next bound s)
      (Recognizer.repeatUpTo step' next bound s) := by
    intro bound
    induction bound with
    | zero => exact fun _ _ => rfl
    | succ bound ih =>
        intro s t
        rw [Counted.repeatUpTo, Recognizer.repeatUpTo, hstep s t]
        cases step' s t with
        | found ns rest => exact (ih (ns.foldl next s)).map _ rest
        | absent => rfl
        | broken fault => rfl
  exact fun t => hrounds t.length s t

end Parts

/-- Below the limit a level is opened and closed again. -/
theorem entered {k : Counted α} {r : Recognizer α} (hk : Keeps (depth + 1) k r)
    (hdepth : depth < limit) (start : Text) : Keeps depth (.entered limit start k) r := by
  intro t
  rw [Counted.entered, if_neg (Nat.not_lt.mpr hdepth), hk t]
  rfl

/-- At the limit nothing is read and no level is opened. -/
theorem entered_refused (hdepth : limit ≤ depth) (start : Text) (k : Counted α) :
    Keeps depth (.entered limit start k) fun _ => .broken (.tooDeep start) :=
  fun _ => if_pos (Nat.lt_succ_of_le hdepth)

/-- A production that is refused after its first part is refused as a whole. -/
theorem node_refused (c : Category) (opening : Recognizer Node) (t : Text) :
    Recognizer.node c (opening.andThen fun _ _ => .broken (.tooDeep t)) t =
      Recognizer.refused opening t := by
  unfold Recognizer.node Recognizer.andThen Recognizer.refused
  cases opening t <;> rfl

/-- A production whose level is opened after its first part is refused exactly if no level is
left, and is read with one level less otherwise. -/
theorem level {opening whole : Recognizer Node} {parts : Node → Counted (List Node)}
    {c : Category} {t : Text} (hroom : depth + room = limit)
    (hrefused : room = 0 → whole t = Recognizer.refused opening t)
    (hread : ∀ m, room = m + 1 → ∃ parts' : Node → Recognizer (List Node),
      (∀ n, Keeps (depth + 1) (parts n) (parts' n)) ∧
        whole t = Recognizer.node c (opening.andThen parts') t) :
    Counted.node c ((Counted.ofRecognizer opening).andThen fun n =>
      Counted.entered limit t (parts n)) t depth = (whole t, depth) := by
  cases room with
  | zero =>
      have hlimit : limit ≤ depth := Nat.le_of_eq hroom.symm
      have hparts := (ofRecognizer opening).andThen fun n => entered_refused hlimit t (parts n)
      rw [hrefused rfl, hparts.node c t, node_refused]
  | succ m =>
      obtain ⟨parts', hparts, hwhole⟩ := hread m rfl
      have hdepth : depth < limit := by omega
      rw [hwhole]
      exact ((ofRecognizer opening).andThen fun n => (hparts n).entered hdepth t).node c t

end Keeps

section Productions

variable {depth limit room : Nat}

theorem one_seq (opening : Recognizer Node) (u : Recognizer (List Node)) :
    (Recognizer.one opening).seq u = opening.andThen fun _ => u := by
  funext t
  unfold Recognizer.seq Recognizer.one Recognizer.andThen
  cases opening t <;> rfl

theorem collection_keeps (hroom : depth + room = limit) (demand : Demand) (c : Category)
    (opening first next : Recognizer Node) (closing : Char) (finish : Category) :
    Keeps depth (collection limit demand c opening first next closing finish)
      (Grammar.collectionUnder demand c opening first next closing finish room) := by
  refine fun t => Keeps.level hroom ?_ ?_
  · rintro rfl
    rfl
  · rintro m rfl
    refine ⟨_, fun _ => .ofRecognizer _, ?_⟩
    rw [← one_seq]
    rfl

theorem plainItem_keeps (hroom : depth + room = limit) (role : Category) :
    Keeps depth (plainItem limit role) (Grammar.plainItem room role) :=
  (((collection_keeps hroom _ _ _ _ _ _ _).orElse (collection_keeps hroom _ _ _ _ _ _ _)).orElse
    (.ofRecognizer _)).orElse (.ofRecognizer _)

theorem commandItem_keeps (hroom : depth + room = limit) (context : Grammar.NameContext) :
    Keeps depth (commandItem limit context) (Grammar.commandItem room context) := by
  have hplain := plainItem_keeps hroom context.role
  unfold commandItem Grammar.commandItem
  split
  · exact (Keeps.ofRecognizer _).orElse hplain
  · intro t
    rw [otherThan, Grammar.otherThan]
    cases Grammar.leadingWord t with
    | found n rest => rfl
    | absent => exact hplain t
    | broken fault => rfl

theorem commandItems_keeps (hroom : depth + room = limit) (words : List Keyword) :
    Keeps depth (commandItems limit words) (Grammar.commandItems room words) :=
  .repeated (fun context => (commandItem_keeps hroom context).spaced) _

/-- The bound on the commands in a command makes no difference if it is not below the number
of levels left. -/
theorem command_keeps (hroom : depth + room = limit) {bound : Nat} (hbound : room ≤ bound)
    (demand : Demand) :
    Keeps depth (command limit demand bound) (Grammar.commandUnder demand room) := by
  induction bound generalizing depth room demand with
  | zero =>
      obtain rfl := Nat.le_zero.mp hbound
      exact fun t => Keeps.level hroom (fun _ => rfl) nofun
  | succ bound ih =>
      refine fun t => Keeps.level hroom ?_ ?_
      · rintro rfl
        rfl
      · rintro m rfl
        have hinner : depth + 1 + m = limit := by omega
        have hnested := ih hinner (Nat.le_of_succ_le_succ hbound) .optional
        exact ⟨_, fun _ => (commandItems_keeps hinner _).seq hnested.spaced.optional, rfl⟩

theorem statement_keeps (limit : Nat) :
    Keeps 0 (statement limit) (Grammar.statement limit) := by
  have hcommand : Keeps 0 (command limit .optional limit) (Grammar.command limit) :=
    command_keeps (Nat.zero_add limit) (Nat.le_refl limit) .optional
  have hspace : Keeps 0 (ofRecognizer _) (Recognizer.optional Grammar.whitespace.one) :=
    .ofRecognizer _
  have hwhere : Keeps 0 (ofRecognizer _) (Grammar.spaced Grammar.condition) := .ofRecognizer _
  have hterminator : Keeps 0 (ofRecognizer _)
      (Recognizer.optional (Grammar.spaced Grammar.terminator)) := .ofRecognizer _
  exact ((((hspace.seq (hcommand.required .command).one).seq
    (hwhere.seq hcommand.spaced.optional).optional).seq hterminator).seq hspace).bind
    fun _ => .ofRecognizer _

/-- Every production is read as if the levels left were told, and leaves no level open. -/
theorem ofProduction_keeps (limit : Nat) (demand : Demand) (p : Production) :
    Keeps 0 (ofProduction limit demand p) (p.recognizer limit demand) := by
  have hroom : 0 + limit = limit := Nat.zero_add limit
  cases p with
  | arrayLiteral => exact collection_keeps hroom _ _ _ _ _ _ _
  | mapLiteral => exact collection_keeps hroom _ _ _ _ _ _ _
  | command => exact command_keeps hroom (Nat.le_refl limit) demand
  | statement => exact statement_keeps limit
  | _ => exact .ofRecognizer _

end Productions

end Counted

end QueryTree
