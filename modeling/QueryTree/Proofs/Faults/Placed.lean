import QueryTree.Proofs.Derivation.Ahead

/-!
# Where faults are

A fault is described by the text at which it arose. That text is a suffix of the text at
whose front the reading began, for a recognizer goes on where the one before it ended. A
fault about nesting lies at least as many characters on as there were levels left, because
each level begins with a character of its own.
-/

namespace QueryTree

open Recognizer

/-- Whether a text begins with what may take up a level of nesting. -/
def Text.BeginsLevel (t : Text) : Prop :=
  t.head? = some '[' ∨ t.head? = some '\x7b' ∨ isReservedWord (t.takeWhile Char.isAlphanum) = true

/-- Whether a text goes on with neither whitespace nor the delimiter that is missing. -/
def Text.Misses (delimiter : Char) (t : Text) : Prop :=
  ∀ x ∈ t.head?, x ≠ delimiter ∧ isLayout x = false

/-- What a fault says of the text at whose front the reading began, with `room` levels of
nesting left. -/
def Fault.PointsInto (room : Nat) (t : Text) : Fault → Prop
  | .expected _ found => found <:+ t
  | .unterminated c delimiter (.start u) =>
    u <:+ t ∧ (c = .string ∧ u = [] ∨ (c = .arrayLiteral ∨ c = .mapLiteral) ∧ u.Misses delimiter)
  | .unterminated c _ (.finish u) => u <:+ t ∧ c = .itemNameCaseSensitive
  | .trailing u => u <:+ t ∧ u ≠ []
  | .tooDeep u => u <:+ t ∧ u.length + room ≤ t.length ∧ u.BeginsLevel

namespace Fault.PointsInto

variable {room : Nat} {t u : Text} {f : Fault}

/-- A fault in the rest of a text is a fault in the text. -/
theorem of_suffix (h : f.PointsInto room u) (hut : u <:+ t) : f.PointsInto room t := by
  cases f with
  | expected c found => exact List.IsSuffix.trans h hut
  | unterminated c delimiter place =>
      cases place with
      | start v => exact ⟨h.1.trans hut, h.2⟩
      | finish v => exact ⟨h.1.trans hut, h.2⟩
  | trailing found => exact ⟨h.1.trans hut, h.2⟩
  | tooDeep place => exact ⟨h.1.trans hut, h.2.1.trans hut.length_le, h.2.2⟩

/-- Where something has been read first, one more level was left. -/
theorem of_shorter (h : f.PointsInto room u) (hut : u <:+ t) (hlength : u.length < t.length) :
    f.PointsInto (room + 1) t := by
  cases f with
  | tooDeep place =>
      obtain ⟨hplace, hroom, hbegins⟩ := h
      exact ⟨hplace.trans hut, by omega, hbegins⟩
  | expected c found => exact List.IsSuffix.trans h hut
  | unterminated c delimiter place => cases place <;> exact ⟨h.1.trans hut, h.2⟩
  | trailing found => exact ⟨h.1.trans hut, h.2⟩

end Fault.PointsInto

/-- Whether the outcome of a reading stays within the text: what remains is a suffix of it,
and a fault points into it. -/
inductive Reading.Placed {α : Type} (room : Nat) (t : Text) : Reading α → Prop where
  | found (a : α) {rest : Text} (h : rest <:+ t) : Placed room t (.found a rest)
  | absent : Placed room t .absent
  | broken {f : Fault} (h : f.PointsInto room t) : Placed room t (.broken f)

namespace Reading.Placed

variable {α β : Type} {room : Nat} {t u : Text} {x : Reading α}

theorem of_suffix (h : x.Placed room u) (hut : u <:+ t) : x.Placed room t := by
  cases h with
  | found a h => exact .found a (h.trans hut)
  | absent => exact .absent
  | broken h => exact .broken (h.of_suffix hut)

theorem of_shorter (h : x.Placed room u) (hut : u <:+ t) (hlength : u.length < t.length) :
    x.Placed (room + 1) t := by
  cases h with
  | found a h => exact .found a (h.trans hut)
  | absent => exact .absent
  | broken h => exact .broken (h.of_shorter hut hlength)

theorem bind {next : α → Recognizer β} (h : x.Placed room t)
    (hnext : ∀ a rest, x = .found a rest → rest <:+ t → (next a rest).Placed room t) :
    (x.bind next).Placed room t := by
  cases h with
  | @found a rest h => exact hnext a rest rfl h
  | absent => exact .absent
  | broken h => exact .broken h

/-- What is read next begins at the rest. -/
theorem bind_rest {next : α → Recognizer β} (h : x.Placed room t)
    (hnext : ∀ a rest, (next a rest).Placed room rest) : (x.bind next).Placed room t :=
  h.bind fun a rest _ hrest => (hnext a rest).of_suffix hrest

theorem map {f : α → β} (h : x.Placed room t) : (x.map f).Placed room t :=
  h.bind_rest fun a _ => .found (f a) List.suffix_rfl

end Reading.Placed

namespace Recognizer

variable {α : Type} {room : Nat}

/-- Whether a recognizer stays within every text that it is given. -/
def Places (room : Nat) (r : Recognizer α) : Prop :=
  ∀ t, (r t).Placed room t

variable {σ : Type} {r s : Recognizer α} {q : Recognizer Node} {u v : Recognizer (List Node)}

theorem Places.orElse (hr : r.Places room) (hs : s.Places room) : (r.orElse s).Places room := by
  intro t
  have hrt := hr t
  unfold Recognizer.orElse
  generalize r t = x at hrt ⊢
  cases hrt with
  | found a h => exact .found a h
  | absent => exact hs t
  | broken h => exact .broken h

theorem Places.required (hr : r.Places room) (c : Category) : (r.required c).Places room :=
  hr.orElse fun t => .broken (f := .expected c t) List.suffix_rfl

theorem Places.under (hr : r.Places room) (demand : Demand) (c : Category) :
    (r.under demand c).Places room := by
  cases demand with
  | optional => exact hr
  | mandatory => exact hr.required c

theorem Places.one (hq : q.Places room) : q.one.Places room :=
  fun t => (hq t).map

theorem Places.seq (hu : u.Places room) (hv : v.Places room) : (u.seq v).Places room :=
  fun t => (hu t).bind_rest fun _ rest => (hv rest).map

theorem Places.andThen {parts : Node → Recognizer (List Node)} (hq : q.Places room)
    (hparts : ∀ n, (parts n).Places room) : (q.andThen parts).Places room :=
  fun t => (hq t).bind_rest fun n rest => (hparts n rest).map

/-- A production that reads something first may hand on one level less. -/
theorem Places.andThen_shorter {l : Language Label} {parts : Node → Recognizer (List Node)}
    (hq : q.Places (room + 1)) (hfinds : q.Finds l) (hl : [] ∉ l)
    (hparts : ∀ n, (parts n).Places room) : (q.andThen parts).Places (room + 1) :=
  fun t => (hq t).bind fun n rest hn hrest =>
    ((hparts n rest).map).of_shorter hrest ((hfinds t n rest hn).length_lt hl)

/-- A production that is refused begins where it was looked for. -/
theorem Places.refused (hq : q.Places 0)
    (hbegins : ∀ t n rest, q t = .found n rest → Text.BeginsLevel t) :
    (Recognizer.refused q : Recognizer α).Places 0 :=
  fun t => (hq t).bind fun n rest hn _ => .broken ⟨List.suffix_rfl, le_rfl, hbegins t n rest hn⟩

theorem Places.optional (hu : u.Places room) : (Recognizer.optional u).Places room :=
  hu.orElse fun _ => .found [] List.suffix_rfl

theorem Places.node (hu : u.Places room) (c : Category) : (Recognizer.node c u).Places room :=
  fun t => (hu t).bind_rest fun _ _ => .found _ List.suffix_rfl

theorem Places.wrap (hq : q.Places room) (c : Category) : (Recognizer.wrap c q).Places room :=
  hq.one.node c

theorem Places.filter (hq : q.Places room) (keep : Node → Text → Bool) :
    Places room fun t => (q t).bind fun n rest =>
      if keep n rest then .found n rest else .absent := by
  refine fun t => (hq t).bind_rest fun n rest => ?_
  split
  · exact .found n List.suffix_rfl
  · exact .absent

theorem Places.repeated {step : σ → Recognizer (List Node)} {next : σ → Node → σ}
    (hstep : ∀ s, (step s).Places room) (s : σ) :
    (Recognizer.repeated step next s).Places room := by
  have hrounds : ∀ bound s t, (repeatUpTo step next bound s t).Placed room t := by
    intro bound
    induction bound with
    | zero => exact fun _ t => .found [] List.suffix_rfl
    | succ bound ih =>
        intro s t
        have hround := hstep s t
        unfold repeatUpTo
        generalize step s t = x at hround ⊢
        cases hround with
        | @found ns rest h => exact ((ih (ns.foldl next s) rest).map).of_suffix h
        | absent => exact .found [] List.suffix_rfl
        | broken h => exact .broken h
  exact fun t => hrounds t.length s t

theorem Places.many (hu : u.Places room) : u.many.Places room :=
  Places.repeated (fun _ => hu) ()

/-- A recognizer that never breaks off stays within the text. -/
theorem Places.of_finds {l : Language Label} (hq : q.Finds l)
    (hbroken : ∀ t f, q t ≠ .broken f) : q.Places room := by
  intro t
  cases hx : q t with
  | found n rest =>
      exact .found n ⟨_, (hq t n rest hx).tiles.flatten_append⟩
  | absent => exact .absent
  | broken f => exact absurd hx (hbroken t f)

end Recognizer

end QueryTree
