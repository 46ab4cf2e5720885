import QueryTree.Proofs.Faults.Grammar

/-!
# Errors point into the source

The offset of a parse error is the size of what stands before a place in the source, and
the text that remains there is the one that the error is about.
-/

namespace QueryTree

/-- What a parse error says of the text that remains where it is. -/
def ParseError.Describes (remaining : Text) : ParseError → Prop
  | .expected _ found _ => found = remaining
  | .unterminated c delimiter _ =>
    (c = .string ∨ c = .itemNameCaseSensitive) ∧ remaining = [] ∨
      (c = .arrayLiteral ∨ c = .mapLiteral) ∧ remaining.Misses delimiter
  | .trailingInput found _ => found = remaining ∧ found ≠ []
  | .tooDeep _ _ => remaining.BeginsLevel

namespace Place

variable (before remaining : Text)

/-- The offset of what remains of a text is the size of what has been read. -/
theorem start_offset :
    (start remaining).offset (Text.byteSize (before ++ remaining)) = Text.byteSize before := by
  rw [offset, Text.byteSize_append, Nat.add_sub_cancel]

/-- The end of what remains of a text is the end of the text. -/
theorem finish_offset :
    (finish remaining).offset (Text.byteSize (before ++ remaining)) =
      Text.byteSize (before ++ remaining) := by
  rw [offset, Text.byteSize_append, Nat.add_sub_cancel]

end Place

/-- A fault that points into a text is located there. -/
theorem Fault.PointsInto.locate {room : Nat} {t : Text} {f : Fault} (h : f.PointsInto room t)
    (limit : Nat) :
    ∃ before remaining, t = before ++ remaining ∧
      (f.locate limit (Text.byteSize t)).offset = Text.byteSize before ∧
      (f.locate limit (Text.byteSize t)).Describes remaining := by
  cases f with
  | expected c found =>
      obtain ⟨before, rfl⟩ : found <:+ t := h
      exact ⟨before, found, rfl, Place.start_offset before found, rfl⟩
  | trailing found =>
      obtain ⟨⟨before, rfl⟩, hfound⟩ := h
      exact ⟨before, found, rfl, Place.start_offset before found, rfl, hfound⟩
  | tooDeep place =>
      obtain ⟨⟨before, rfl⟩, _, hbegins⟩ := h
      exact ⟨before, place, rfl, Place.start_offset before place, hbegins⟩
  | unterminated c delimiter place =>
      cases place with
      | start u =>
          obtain ⟨⟨before, rfl⟩, hu⟩ := h
          exact ⟨before, u, rfl, Place.start_offset before u,
            hu.imp_left (And.imp_left Or.inl)⟩
      | finish u =>
          obtain ⟨⟨before, rfl⟩, rfl⟩ := h
          exact ⟨before ++ u, [], (List.append_nil _).symm, Place.finish_offset before u,
            Or.inl ⟨Or.inr rfl, rfl⟩⟩

/-- A rejected source has a fault that points into it. -/
theorem exists_fault_of_parse {depth : Nat} {q : Text} {e : ParseError}
    (h : parse depth q = .error e) :
    ∃ f : Fault, f.PointsInto depth q ∧ f.locate depth (Text.byteSize q) = e := by
  have hplaced := Grammar.statement_places depth q
  unfold parse at h
  generalize Grammar.statement depth q = x at h hplaced
  cases hplaced with
  | found n hrest => cases h
  | absent => exact ⟨.expected .statement q, List.suffix_rfl, Except.error.inj h⟩
  | broken hf => exact ⟨_, hf, Except.error.inj h⟩

/-- Errors point into the source. Their offset is the size of what stands before some
place in it, and what remains there is what the error describes: the text that was found,
the end of the source for an open string or name, text that does not go on with the missing
delimiter for a collection, and the beginning of a command or a collection where these nest
too deep. -/
theorem error_points_into_source {depth : Nat} {q : Text} {e : ParseError}
    (h : parse depth q = .error e) :
    ∃ before remaining, q = before ++ remaining ∧ e.offset = Text.byteSize before ∧
      e.Describes remaining := by
  obtain ⟨f, hf, rfl⟩ := exists_fault_of_parse h
  exact hf.locate depth

theorem error_points_into_source_array :
    parse 2 "SELECT 'é' , [ a ;".toList = .error (.unterminated .arrayLiteral ']' 18) ∧
      ∃ before remaining, "SELECT 'é' , [ a ;".toList = before ++ remaining ∧
        Text.byteSize before = 18 ∧
        (ParseError.unterminated .arrayLiteral ']' 18).Describes remaining := by
  have h : parse 2 "SELECT 'é' , [ a ;".toList = .error (.unterminated .arrayLiteral ']' 18) := by
    decide +kernel
  obtain ⟨before, remaining, hq, hoffset, hdescribes⟩ := error_points_into_source h
  exact ⟨h, before, remaining, hq, hoffset.symm, hdescribes⟩

end QueryTree
