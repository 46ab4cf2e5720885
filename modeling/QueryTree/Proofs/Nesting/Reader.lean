import QueryTree.Proofs.Faults.Demand
import QueryTree.Proofs.Faults.Source
import QueryTree.Proofs.Nesting.Counter

/-!
# Readers

A reader reads productions of one source for as long as it is asked to, and keeps the
counter of its open levels from one call to the next. No call leaves a level open, so the
answers do not depend on the calls before. They do not depend on the place in the source
either, but for the offsets of errors.
-/

namespace QueryTree

namespace ParseError

/-- The same error in a source that begins earlier by a number of bytes. -/
def shifted (bytes : Nat) : ParseError → ParseError
  | expected c found offset => .expected c found (offset + bytes)
  | unterminated c delimiter offset => .unterminated c delimiter (offset + bytes)
  | trailingInput found offset => .trailingInput found (offset + bytes)
  | tooDeep limit offset => .tooDeep limit (offset + bytes)

end ParseError

/-- A production to be read at an input, under a demand. -/
structure Call where
  production : Production
  demand : Demand
  input : Text
deriving DecidableEq

/-- A reader of a source, with a limit on the depth of nesting and the number of levels that
are open. -/
structure Reader where
  source : Text
  limit : Nat
  depth : Nat
deriving DecidableEq

namespace Reader

/-- A reader before its first call. -/
def fresh (limit : Nat) (source : Text) : Reader :=
  ⟨source, limit, 0⟩

/-- Reads what a call asks for and counts the levels that are open afterwards. -/
def read (reader : Reader) (call : Call) : Reading Node × Nat :=
  Counted.ofProduction reader.limit call.demand call.production call.input reader.depth

/-- What a reader answers to a call. -/
def answer (reader : Reader) (call : Call) : Except ParseError (Option Node) :=
  match (reader.read call).1 with
  | .found n _ => .ok (some n)
  | .absent => .ok none
  | .broken fault => .error (fault.locate reader.limit (Text.byteSize reader.source))

/-- The reader after a call. -/
def after (reader : Reader) (call : Call) : Reader :=
  { reader with depth := (reader.read call).2 }

/-- The reader after some calls. -/
def run (reader : Reader) (calls : List Call) : Reader :=
  calls.foldl after reader

end Reader

namespace Production

open Grammar

/-- Every production stays within the text that it is looked for in. -/
theorem offered_places (depth : Nat) (p : Production) : (p.offered depth).Places depth := by
  cases p with
  | whitespace => exact run_places _
  | chars => exact run_places _
  | number => exact run_places _
  | hexBlob => exact hexBlob_places
  | symbol => exact single_places _
  | accessor => exact single_places _
  | placeholder => exact single_places _
  | mapSeparator => exact single_places _
  | terminator => exact single_places _
  | operator => exact operator_places
  | reservedWord => exact word_places _
  | whereKeyword => exact oneOf_places _
  | inputCharacters => exact inputCharacters_places
  | string => exact string_places
  | delimiter x c => exact single_places _
  | keyword words c => exact oneOf_places words
  | reservedWordSequence => exact reservedWordSequence_places
  | itemNameCaseInsensitive =>
      change Recognizer.Places depth Grammar.itemNameCaseInsensitive
      exact word_places _
  | itemNameCaseSensitive => exact itemNameCaseSensitive_places
  | itemName => exact itemName_places
  | literal => exact literal_places
  | selectorItem => exact selector_places _
  | arrayLiteral => exact arrayLiteral_places depth
  | mapLiteral => exact mapLiteral_places depth
  | command => exact command_places depth
  | condition => exact condition_places
  | conditionChain => exact conditionChain_places .optional
  | conditionItem => exact conditionItem_places .optional
  | statement => exact statement_places depth

theorem recognizer_places (depth : Nat) (demand : Demand) (p : Production) :
    (p.recognizer depth demand).Places depth := by
  cases demand with
  | optional => exact p.recognizer_optional depth ▸ p.offered_places depth
  | mandatory => exact p.recognizer_mandatory depth ▸ (p.offered_places depth).required _

end Production

/-- A place in the end of a source is as much further on as the source begins earlier. -/
theorem Place.offset_start_add {u t : Text} (h : u <:+ t) {size : Nat}
    (hsize : Text.byteSize t ≤ size) :
    (Place.start u).offset size =
      (Place.start u).offset (Text.byteSize t) + (size - Text.byteSize t) := by
  obtain ⟨before, rfl⟩ := h
  rw [Text.byteSize_append] at hsize ⊢
  simp only [Place.offset]
  omega

/-- A fault that points into the end of a source is located by the size of what stands
before this end. -/
theorem Fault.PointsInto.locate_shifted {room : Nat} {t : Text} {f : Fault}
    (h : f.PointsInto room t) (limit : Nat) {size : Nat} (hsize : Text.byteSize t ≤ size) :
    f.locate limit size =
      (f.locate limit (Text.byteSize t)).shifted (size - Text.byteSize t) := by
  cases f with
  | expected c found =>
      exact congrArg (ParseError.expected c found) (Place.offset_start_add h hsize)
  | trailing found =>
      exact congrArg (ParseError.trailingInput found) (Place.offset_start_add h.1 hsize)
  | tooDeep place =>
      exact congrArg (ParseError.tooDeep limit) (Place.offset_start_add h.1 hsize)
  | unterminated c delimiter place =>
      apply congrArg (ParseError.unterminated c delimiter)
      cases place with
      | start u => exact Place.offset_start_add h.1 hsize
      | finish u =>
          have hstart := Place.offset_start_add h.1 hsize
          simp only [Place.offset] at hstart ⊢
          omega

/-- What is read at the end of a source is read in the same way in this end alone, but for
the offsets of errors. -/
theorem recognize_shifted (depth : Nat) (source : Text) (p : Production) (demand : Demand)
    {input : Text} (h : Text.byteSize input ≤ Text.byteSize source) :
    recognize depth source p demand input =
      (recognize depth input p demand input).mapError
        (ParseError.shifted (Text.byteSize source - Text.byteSize input)) := by
  have hplaced := p.recognizer_places depth demand input
  unfold recognize
  generalize p.recognizer depth demand input = x at hplaced ⊢
  cases hplaced with
  | found n hrest => rfl
  | absent => rfl
  | broken hf => exact congrArg Except.error (hf.locate_shifted depth h)

namespace Reader

variable {reader : Reader} {call : Call}

/-- With no level open a reader answers as its limit alone asks for, and no level is left
open. -/
theorem read_eq (h : reader.depth = 0) (call : Call) :
    reader.read call =
      (call.production.recognizer reader.limit call.demand call.input, 0) := by
  rw [read, h]
  exact Counted.ofProduction_keeps reader.limit call.demand call.production call.input

theorem answer_eq (h : reader.depth = 0) (call : Call) :
    reader.answer call =
      recognize reader.limit reader.source call.production call.demand call.input := by
  rw [answer, read_eq h]
  rfl

/-- No call leaves a level open, whatever its outcome is. -/
theorem after_fresh (limit : Nat) (source : Text) (call : Call) :
    (fresh limit source).after call = fresh limit source := by
  rw [after, read_eq rfl]
  rfl

theorem run_fresh (limit : Nat) (source : Text) (calls : List Call) :
    (fresh limit source).run calls = fresh limit source := by
  induction calls with
  | nil => rfl
  | cons call calls ih =>
      rw [run, List.foldl_cons, after_fresh]
      exact ih

/-- The answers of a reader depend neither on the calls before nor on the place in the
source. After any calls, whatever they answered, no level is open, a call is answered by the
production alone, and at an input that is not longer than the source a fresh reader of the
input answers the same, but for the offsets of errors. -/
theorem answer_is_fresh (limit : Nat) (source : Text) (calls : List Call) (call : Call) :
    ((fresh limit source).run calls).depth = 0 ∧
      ((fresh limit source).run calls).answer call =
        recognize limit source call.production call.demand call.input ∧
      (Text.byteSize call.input ≤ Text.byteSize source →
        ((fresh limit source).run calls).answer call =
          ((fresh limit call.input).answer call).mapError
            (ParseError.shifted (Text.byteSize source - Text.byteSize call.input))) := by
  rw [run_fresh, answer_eq rfl, answer_eq rfl]
  exact ⟨rfl, rfl, recognize_shifted limit source call.production call.demand⟩

/-- The first call is refused below an open level. -/
theorem answer_is_fresh_refused :
    (fresh 1 "SELECT [a FROM t".toList).answer
        ⟨.statement, .mandatory, "SELECT [a FROM t".toList⟩ = .error (.tooDeep 1 7) ∧
      (fresh 1 "a = ;".toList).answer ⟨.conditionItem, .optional, "a = ;".toList⟩ =
        .error (.expected .selectorItem ";".toList 4) ∧
      ((fresh 1 "SELECT [a FROM t".toList).run
          [⟨.statement, .mandatory, "SELECT [a FROM t".toList⟩]).answer
          ⟨.conditionItem, .optional, "a = ;".toList⟩ =
        .error (.expected .selectorItem ";".toList 15) := by
  have hinput : (fresh 1 "a = ;".toList).answer ⟨.conditionItem, .optional, "a = ;".toList⟩ =
      .error (.expected .selectorItem ";".toList 4) := by
    decide +kernel
  refine ⟨by decide +kernel, hinput, ?_⟩
  rw [(answer_is_fresh 1 "SELECT [a FROM t".toList _ _).2.2 (by decide), hinput]
  rfl

end Reader

end QueryTree
