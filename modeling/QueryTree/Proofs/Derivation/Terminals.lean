import QueryTree.Grammar.Collection
import QueryTree.Grammar.Condition
import QueryTree.Grammar.KeywordSequence
import QueryTree.Proofs.Derivation.Quotation
import QueryTree.Proofs.Derivation.Reading

/-!
# Terminals read what their categories spell

A run is as long as it can be, so the text after it does not go on with it. A single
character and a string are read as they stand.
-/

namespace QueryTree

theorem Text.isRun_takeWhile {p : Char → Bool} {t : Text} (h : t.takeWhile p ≠ []) :
    Text.IsRun p (t.takeWhile p) (t.dropWhile p) := by
  refine ⟨h, List.all_eq_true.mp List.all_takeWhile, ?_⟩
  intro c hc
  have := List.head?_dropWhile_not p t
  rw [Option.mem_def.mp hc] at this
  simpa using this

/-- A run begins with a character of its class. -/
theorem Text.IsRun.exists_cons {p : Char → Bool} {w t : Text} (h : Text.IsRun p w t) :
    ∃ c w', w = c :: w' ∧ p c = true := by
  obtain ⟨c, w', rfl⟩ := List.exists_cons_of_ne_nil h.1
  exact ⟨c, w', rfl, h.2.1 c List.mem_cons_self⟩

theorem Text.IsRun.takeWhile_append {p : Char → Bool} {w t : Text} (h : Text.IsRun p w t) :
    (w ++ t).takeWhile p = w := by
  rw [List.takeWhile_append_of_pos h.2.1]
  cases t with
  | nil => simp
  | cons c t => simp [h.2.2 c rfl]

theorem Text.IsRun.dropWhile_append {p : Char → Bool} {w t : Text} (h : Text.IsRun p w t) :
    (w ++ t).dropWhile p = t := by
  rw [List.dropWhile_append_of_pos h.2.1]
  cases t with
  | nil => rfl
  | cons c t => simp [h.2.2 c rfl]

theorem Derives.word {c : Category} {accept : Text → Prop} {t rest : Text} {n : Node}
    (h : Derives (Phrase.part c) t [n] rest) (ha : accept n.spelling) :
    Derives (Phrase.word c accept) t [n] rest :=
  ⟨Phrase.label_mem_word.mpr ⟨Phrase.label_mem_part.mp h.labels, ha⟩, h.tiles, h.formed⟩

namespace Grammar

open Recognizer Phrase

theorem run_eq_found {c : Category} {p : Char → Bool} {t rest : Text} {n : Node} :
    run c p t = .found n rest ↔
      t.takeWhile p ≠ [] ∧ n = Node.leaf c (t.takeWhile p) (t.dropWhile p) ∧
        rest = t.dropWhile p := by
  unfold run
  split
  next h => simp [h]
  next h => exact ⟨fun hf => ⟨h, (Reading.found.inj hf).1.symm, (Reading.found.inj hf).2.symm⟩,
    fun hf => by rw [hf.2.1, hf.2.2]⟩

theorem run_finds {c : Category} {p : Char → Bool} (hc : c.isComposite = false)
    (hspells : ∀ w rest, Text.IsRun p w rest → c.Spells w rest) :
    (run c p).Finds (part c) := by
  intro t n rest h
  obtain ⟨hne, rfl, rfl⟩ := run_eq_found.mp h
  have hrun := Text.isRun_takeWhile hne
  simpa only [List.takeWhile_append_dropWhile] using Derives.leaf hc hne (hspells _ _ hrun)

theorem single_eq_found {c : Category} {p : Char → Bool} {t rest : Text} {n : Node} :
    single c p t = .found n rest ↔
      ∃ x, p x = true ∧ t = x :: rest ∧ n = Node.leaf c [x] rest := by
  cases t with
  | nil => simp [single]
  | cons x t =>
      by_cases hx : p x = true
      · simp only [single, if_pos hx, Reading.found.injEq, List.cons.injEq]
        constructor
        · rintro ⟨rfl, rfl⟩
          exact ⟨x, hx, ⟨rfl, rfl⟩, rfl⟩
        · rintro ⟨_, _, ⟨rfl, rfl⟩, rfl⟩
          exact ⟨rfl, rfl⟩
      · simp only [single, if_neg hx, reduceCtorEq, List.cons.injEq, false_iff]
        rintro ⟨_, hy, ⟨rfl, rfl⟩, _⟩
        exact hx hy

theorem single_finds {c : Category} {p : Char → Bool} (hc : c.isComposite = false)
    (hspells : ∀ x rest, p x = true → c.Spells [x] rest) : (single c p).Finds (part c) := by
  intro t n rest h
  obtain ⟨x, hx, rfl, rfl⟩ := single_eq_found.mp h
  exact Derives.leaf hc (List.cons_ne_nil x []) (hspells x rest hx)

theorem delimiter_finds {c : Category} {x : Char} (hc : c.isComposite = false)
    (hspells : ∀ rest, c.Spells [x] rest) : (delimiter x c).Finds (part c) :=
  single_finds hc fun y rest hy => by
    rw [beq_iff_eq.mp hy]
    exact hspells rest

theorem word_eq_found {c : Category} {accept : Text → Bool} {t rest : Text} {n : Node} :
    word c accept t = .found n rest ↔
      t.takeWhile Char.isAlphanum ≠ [] ∧ accept (t.takeWhile Char.isAlphanum) = true ∧
        n = Node.leaf c (t.takeWhile Char.isAlphanum) (t.dropWhile Char.isAlphanum) ∧
        rest = t.dropWhile Char.isAlphanum := by
  simp only [word_eq, Bool.and_eq_true, Bool.not_eq_true', List.isEmpty_eq_false_iff]
  split
  next h => simp [h.1, h.2, eq_comm]
  next h => exact ⟨nofun, fun hf => absurd ⟨hf.1, hf.2.1⟩ h⟩

/-- A word is found or absent, and never broken. -/
theorem word_ne_broken {c : Category} {accept : Text → Bool} {t : Text} {fault : Fault} :
    word c accept t ≠ .broken fault := by
  rw [word_eq]
  split <;> simp

theorem word_finds {c : Category} {accept : Text → Bool} (hc : c.isComposite = false)
    (hspells : ∀ w rest, Text.IsRun Char.isAlphanum w rest → accept w = true →
      c.Spells w rest) : (word c accept).Finds (part c) := by
  intro t n rest h
  obtain ⟨hne, ha, rfl, rfl⟩ := word_eq_found.mp h
  have hrun := Text.isRun_takeWhile hne
  simpa only [List.takeWhile_append_dropWhile] using Derives.leaf hc hne (hspells _ _ hrun ha)

theorem whitespace_finds : whitespace.Finds (part .whitespace) :=
  run_finds rfl fun _ _ h => h

theorem number_finds : number.Finds (part .number) :=
  run_finds rfl fun _ _ h => h

theorem hexBlob_finds : hexBlob.Finds (part .hexBlob) := by
  intro t n rest h
  unfold hexBlob at h
  split at h
  next hhead =>
    obtain ⟨hne, rfl, rfl⟩ := run_eq_found.mp h
    have hspells : Category.Spells .hexBlob (t.takeWhile isBlobChar) (t.dropWhile isBlobChar) := by
      refine ⟨Text.isRun_takeWhile hne, ?_⟩
      intro c hc
      cases t with
      | nil => simp at hhead
      | cons d t =>
          have hd : Text.isHexDigit d = true := by simpa using hhead
          have hcd : d = c := by
            simpa [List.takeWhile_cons, isBlobChar, hd] using hc
          exact hcd ▸ hd
    simpa only [List.takeWhile_append_dropWhile] using
      Derives.leaf (c := .hexBlob) rfl hne hspells
  next => cases h

theorem symbol_finds : symbol.Finds (part .symbol) :=
  single_finds rfl fun x _ hx => ⟨x, List.contains_iff_mem.mp hx, rfl⟩

theorem comma_finds : comma.Finds Phrase.comma := by
  intro t n rest h
  obtain ⟨x, hx, rfl, rfl⟩ := single_eq_found.mp h
  have hx : x = ',' := beq_iff_eq.mp hx
  subst hx
  have hspells : Category.Spells .symbol [','] rest := ⟨',', by decide, rfl⟩
  exact (Derives.leaf (c := .symbol) rfl (List.cons_ne_nil _ _) hspells).word rfl

theorem accessor_finds : accessor.Finds (part .accessor) :=
  delimiter_finds rfl fun _ => rfl

theorem placeholder_finds : placeholder.Finds (part .placeholderInject) :=
  delimiter_finds rfl fun _ => rfl

theorem mapSeparator_finds : mapSeparator.Finds (part .mapSeparator) :=
  delimiter_finds rfl fun _ => rfl

theorem terminator_finds : terminator.Finds (part .terminator) :=
  delimiter_finds rfl fun _ => rfl

theorem operator_eq_found {t rest : Text} {n : Node} (h : operator t = .found n rest) :
    ∃ w ∈ [['<', '='], ['>', '='], ['!', '='], ['<'], ['>']],
      t = w ++ rest ∧ n = Node.leaf .operator w rest := by
  unfold operator at h
  split at h
  case h_6 => cases h
  all_goals
    obtain ⟨rfl, rfl⟩ := Reading.found.inj h
    exact ⟨_, by simp, rfl, rfl⟩

theorem operator_pair {x : Char} (hx : x ∈ ['<', '>', '!']) (t : Text) :
    operator (x :: '=' :: t) = .found (Node.leaf .operator [x, '='] t) t := by
  simp only [List.mem_cons, List.not_mem_nil, or_false] at hx
  rcases hx with rfl | rfl | rfl <;> rfl

theorem operator_single {x : Char} (hx : x ∈ ['<', '>']) {t : Text}
    (ht : t.head? ≠ some '=') : operator (x :: t) = .found (Node.leaf .operator [x] t) t := by
  simp only [List.mem_cons, List.not_mem_nil, or_false] at hx
  rcases hx with rfl | rfl <;> (cases t <;> simp_all [operator])

theorem operator_eq_absent {x : Char} {t : Text} (hx : x ∉ ['<', '>'])
    (ht : x = '!' → t.head? ≠ some '=') : operator (x :: t) = .absent := by
  simp only [List.mem_cons, List.not_mem_nil, or_false, not_or] at hx
  unfold operator
  split <;> simp_all

theorem operator_eq_absent_of_notMem {x : Char} {t : Text} (hx : x ∉ ['<', '>', '!']) :
    operator (x :: t) = .absent :=
  operator_eq_absent (fun h => hx (List.mem_append_left ['!'] h))
    fun h => absurd (List.mem_append_right ['<', '>'] (List.mem_singleton.mpr h)) hx

theorem operator_finds : operator.Finds (part .operator) := by
  intro t n rest h
  obtain ⟨w, hw, rfl, rfl⟩ := operator_eq_found h
  have hne : w ≠ [] := by rintro rfl; simp at hw
  exact Derives.leaf (c := .operator) rfl hne hw

/-- A word of a command is a keyword other than `WHERE`. -/
theorem commandWord_eq_word :
    commandWord = word .reservedWord fun w => (Keyword.ofText? w).any fun k => k != .WHERE := by
  apply congrArg (word .reservedWord)
  funext w
  cases Keyword.ofText? w with
  | none => rfl
  | some k => cases k <;> rfl

theorem commandWord_finds : commandWord.Finds (part .reservedWord) := by
  refine word_finds rfl fun w rest hrun hw => ⟨hrun, ?_⟩
  unfold isReservedWord
  cases hk : Keyword.ofText? w with
  | none => simp [hk] at hw
  | some k => rfl

theorem oneOf_finds {words : List Text} {c : Category} (hc : c.isComposite = false)
    (hspells : ∀ w rest, Text.IsRun Char.isAlphanum w rest →
      (∃ known ∈ words, Text.upper known = Text.upper w) → c.Spells w rest) :
    (oneOf words c).Finds
      (Phrase.word c fun w => ∃ known ∈ words, Text.upper known = Text.upper w) := by
  intro t n rest h
  have haccept : ∀ w : Text, (words.any fun known => Text.sameWord known w) = true →
      ∃ known ∈ words, Text.upper known = Text.upper w := by
    simp
  have hfinds := word_finds hc fun w rest hrun hw => hspells w rest hrun (haccept w hw)
  have hword : word c (fun w => words.any fun known => Text.sameWord known w) t =
      .found n rest := h
  obtain ⟨_, ha, hn, _⟩ := word_eq_found.mp hword
  exact (hfinds t n rest hword).word (hn ▸ haccept _ ha)

theorem whereKeyword_finds : whereKeyword.Finds (part .whereKeyword) := by
  have hspells : ∀ w rest, Text.IsRun Char.isAlphanum w rest →
      (∃ known ∈ [Keyword.WHERE.spelling], Text.upper known = Text.upper w) →
      Category.Spells .whereKeyword w rest := by
    rintro w rest hrun ⟨known, hknown, hw⟩
    rw [List.mem_singleton.mp hknown] at hw
    exact ⟨hrun, hw.symm⟩
  intro t n rest h
  have hn := oneOf_finds rfl hspells t n rest h
  exact ⟨label_mem_part.mpr (label_mem_word.mp hn.labels).1, hn.tiles, hn.formed⟩

theorem conjunction_finds : conjunction.Finds Phrase.conjunction := by
  have hspells : ∀ w rest, Text.IsRun Char.isAlphanum w rest →
      (∃ known ∈ [Keyword.AND.spelling, Keyword.OR.spelling],
        Text.upper known = Text.upper w) → Category.Spells .reservedWord w rest := by
    rintro w rest hrun ⟨known, hknown, hw⟩
    refine ⟨hrun, ?_⟩
    rw [isReservedWord, ← Keyword.ofText?_congr hw]
    rcases List.mem_pair.mp hknown with rfl | rfl
    · rw [Keyword.ofText?_spelling, Option.isSome_some]
    · rw [Keyword.ofText?_spelling, Option.isSome_some]
  intro t n rest h
  have hn := oneOf_finds rfl hspells t n rest h
  obtain ⟨hc, known, hknown, hw⟩ := label_mem_word.mp hn.labels
  refine ⟨label_mem_word.mpr ⟨hc, ?_⟩, hn.tiles, hn.formed⟩
  rcases List.mem_pair.mp hknown with rfl | rfl
  · exact Or.inl hw.symm
  · exact Or.inr hw.symm

theorem itemNameCaseInsensitive_finds :
    itemNameCaseInsensitive.Finds (part .itemNameCaseInsensitive) := by
  refine word_finds rfl fun w rest hrun hw => ⟨hrun, ?_⟩
  obtain ⟨hdigit, hclause⟩ : w.head?.any Char.isDigit = false ∧ isClauseWord w = false := by
    simpa using hw
  refine ⟨hclause, ?_⟩
  intro c hc
  rw [Option.mem_def.mp hc] at hdigit
  exact hdigit

end Grammar

end QueryTree
