import QueryTree.Node.Basic
import QueryTree.Recognizer.Fault

/-!
# Recognizers

A recognizer reads a production off the front of a text. It finds the
production, or the production is absent and nothing has been read, or the
production began and then broke off. Recognizers combine into the parts of a
larger production, and the parts into a node. A recognizer that is absent lets
an alternative try, while a fault ends the whole reading.
-/

namespace QueryTree

/-- The outcome of reading at the front of a text. -/
inductive Reading (α : Type) where
  | found (value : α) (rest : Text)
  | absent
  | broken (fault : Fault)
deriving DecidableEq

/-- Reads a value off the front of a text. -/
abbrev Recognizer (α : Type) := Text → Reading α

/-- Whether the absence of a production is acceptable where it is looked for. -/
inductive Demand where
  | optional
  | mandatory
deriving DecidableEq, Repr

namespace Reading

/-- Continues with what was found. -/
def bind {α β : Type} (reading : Reading α) (next : α → Recognizer β) : Reading β :=
  match reading with
  | found value rest => next value rest
  | absent => absent
  | broken fault => broken fault

/-- Changes the value that was found. -/
def map {α β : Type} (f : α → β) (reading : Reading α) : Reading β :=
  reading.bind fun value rest => found (f value) rest

variable {α β : Type}

@[simp] theorem bind_found (value : α) (rest : Text) (next : α → Recognizer β) :
    (found value rest).bind next = next value rest := rfl

@[simp] theorem bind_absent (next : α → Recognizer β) :
    (absent : Reading α).bind next = absent := rfl

@[simp] theorem bind_broken (fault : Fault) (next : α → Recognizer β) :
    (broken fault : Reading α).bind next = broken fault := rfl

@[simp] theorem map_found (f : α → β) (value : α) (rest : Text) :
    (found value rest).map f = found (f value) rest := rfl

@[simp] theorem map_absent (f : α → β) : (absent : Reading α).map f = absent := rfl

@[simp] theorem map_broken (f : α → β) (fault : Fault) :
    (broken fault : Reading α).map f = broken fault := rfl

end Reading

namespace Recognizer

variable {α β σ : Type}

/-- Tries the second recognizer where the first is absent. -/
def orElse (r s : Recognizer α) : Recognizer α := fun t =>
  match r t with
  | .absent => s t
  | reading => reading

/-- Turns the absence of a production into a fault. -/
def orFault (r : Recognizer α) (fault : Text → Fault) : Recognizer α :=
  r.orElse fun t => .broken (fault t)

/-- A production that has to be there. -/
def required (c : Category) (r : Recognizer α) : Recognizer α :=
  r.orFault (Fault.expected c)

/-- Turns the absence of a production into a fault if the production is demanded. -/
def orFaultUnder (demand : Demand) (r : Recognizer α) (fault : Text → Fault) : Recognizer α :=
  match demand with
  | .optional => r
  | .mandatory => r.orFault fault

/-- A production of category `c` that has to be there if it is demanded. -/
def under (demand : Demand) (c : Category) (r : Recognizer α) : Recognizer α :=
  r.orFaultUnder demand (Fault.expected c)

@[simp] theorem under_optional (c : Category) (r : Recognizer α) : r.under .optional c = r := rfl

@[simp] theorem under_mandatory (c : Category) (r : Recognizer α) :
    r.under .mandatory c = r.required c := rfl

/-- What comes of a production of category `c` that is missing. -/
def missing (demand : Demand) (c : Category) : Recognizer α := fun t =>
  match demand with
  | .optional => .absent
  | .mandatory => .broken (.expected c t)

/-- A node as the only part. -/
def one (r : Recognizer Node) : Recognizer (List Node) := fun t =>
  (r t).map fun n => [n]

/-- A node as the first part, and more parts that depend on it. -/
def andThen (r : Recognizer Node) (parts : Node → Recognizer (List Node)) :
    Recognizer (List Node) := fun t =>
  (r t).bind fun n rest => (parts n rest).map fun ns => n :: ns

/-- The parts of the first recognizer, then those of the second. If the second
is absent, so is the sequence. -/
def seq (r s : Recognizer (List Node)) : Recognizer (List Node) := fun t =>
  (r t).bind fun ns rest => (s rest).map fun ms => ns ++ ms

/-- The parts of a recognizer if it finds them, and none otherwise. -/
def optional (r : Recognizer (List Node)) : Recognizer (List Node) :=
  r.orElse fun t => .found [] t

/-- Repeats for at most `bound` rounds. Each node read changes the state that
the next round starts from. -/
def repeatUpTo (step : σ → Recognizer (List Node)) (next : σ → Node → σ) :
    Nat → σ → Recognizer (List Node)
  | 0, _, t => .found [] t
  | bound + 1, s, t =>
    match step s t with
    | .found ns rest =>
      (repeatUpTo step next bound (ns.foldl next s) rest).map fun ms => ns ++ ms
    | .absent => .found [] t
    | .broken fault => .broken fault

/-- Repeats for as long as there is something to read. A round reads at least
one character, so no more rounds are needed than there are characters. -/
def repeated (step : σ → Recognizer (List Node)) (next : σ → Node → σ) (s : σ) :
    Recognizer (List Node) := fun t =>
  repeatUpTo step next t.length s t

/-- Repeats a recognizer that does not depend on what was read before. -/
def many (r : Recognizer (List Node)) : Recognizer (List Node) :=
  repeated (fun _ => r) (fun _ _ => ()) ()

/-- A production whose parts are linked to their neighbours. -/
def node (c : Category) (parts : Recognizer (List Node)) : Recognizer Node := fun t =>
  (parts t).bind fun ns rest => .found (Node.branch c (Node.chain ns) rest) rest

/-- A production around a single node. -/
def wrap (c : Category) (r : Recognizer Node) : Recognizer Node :=
  node c r.one

/-- What becomes of a production when no level of nesting is left for it. -/
def refused (opening : Recognizer Node) : Recognizer α := fun t =>
  (opening t).bind fun _ _ => .broken (.tooDeep t)

end Recognizer

end QueryTree
