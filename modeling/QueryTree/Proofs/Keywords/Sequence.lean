import QueryTree.Proofs.Correspondence.Grammar
import QueryTree.Proofs.Faults.Demand
import QueryTree.Proofs.Template.Item

/-!
# Runs of keywords

Which words at the front of a text open a command. A keyword that is also a name belongs to
the run only next to its partner, so that whether a word belongs depends on both of its
neighbours, and the run goes on for as long as the next word belongs. There is at most one
such run, and it is the one that is read.
-/

namespace QueryTree

open Recognizer Grammar

/-- Whether a text begins with a word of the vocabulary that is not `WHERE`, up to a
rest. -/
structure BeginsWord (t w rest : Text) : Prop where
  cover : w ++ rest = t
  run : Text.IsRun Char.isAlphanum w rest
  reserved : isReservedWord w = true
  other : Text.upper w ≠ Keyword.WHERE.spelling

/-- Whether a word in front of a rest may open a run: it is a clause word, or it is paired
with the word of the vocabulary that follows it. -/
def OpensRun (w rest : Text) : Prop :=
  isClauseWord w = true ∨
    ∃ v after, BeginsWord (rest.dropWhile Text.isLayout) v after ∧ arePaired w v = true

/-- Words of the vocabulary one after the other, with whitespace between them, up to a
rest. -/
inductive WordsTo : Text → List Text → Text → Prop
  | last {t w rest} (h : BeginsWord t w rest) : WordsTo t [w] rest
  | more {t w gap middle ws rest} (h : BeginsWord t w (gap ++ middle)) (hne : gap ≠ [])
      (hlayout : ∀ x ∈ gap, Text.isLayout x = true) (hmore : WordsTo middle ws rest) :
      WordsTo t (w :: ws) rest

/-- Whether words are a run that cannot be longer: every word is a clause word or is paired
with a neighbour, and a word of the vocabulary that comes next is not a clause word, is not
paired with the last word, and is not paired with the word of the vocabulary after it. -/
structure MaximalRun (t : Text) (ws : List Text) (rest : Text) : Prop where
  reads : WordsTo t ws rest
  joined : ∀ before w after, ws = before ++ w :: after →
    isClauseWord w = true ∨ (∃ v ∈ before.getLast?, arePaired v w = true) ∨
      ∃ v ∈ after.head?, arePaired w v = true
  maximal : ∀ w after, BeginsWord (rest.dropWhile Text.isLayout) w after →
    isClauseWord w = false ∧ (∀ v ∈ ws.getLast?, arePaired v w = false) ∧
      ∀ v further, BeginsWord (after.dropWhile Text.isLayout) v further → arePaired w v = false

/-- The words of a run of keywords. -/
def Node.words (n : Node) : List Text :=
  (n.children.filter fun m => m.category = .reservedWord).map Node.spelling

namespace BeginsWord

variable {t w v gap rest after : Text}

theorem takeWhile_eq (h : BeginsWord t w rest) : t.takeWhile Char.isAlphanum = w := by
  rw [← h.cover, h.run.takeWhile_append]

theorem dropWhile_eq (h : BeginsWord t w rest) : t.dropWhile Char.isAlphanum = rest := by
  rw [← h.cover, h.run.dropWhile_append]

theorem unique (h : BeginsWord t w rest) (h' : BeginsWord t v after) : w = v ∧ rest = after :=
  ⟨h.takeWhile_eq.symm.trans h'.takeWhile_eq, h.dropWhile_eq.symm.trans h'.dropWhile_eq⟩

theorem endsWord (h : BeginsWord t w rest) : EndsWord rest :=
  h.run.2.2

/-- Whitespace in front of a word ends where the word begins. -/
theorem dropLayout (h : BeginsWord t w rest) (hgap : ∀ x ∈ gap, Text.isLayout x = true) :
    (gap ++ t).dropWhile Text.isLayout = t := by
  have hhead := isLayout_head?_word h.run.1 h.run.2.1 rest
  rw [h.cover] at hhead
  exact Gap.dropWhile_append ⟨gap, hgap⟩ hhead

/-- Behind the end of a word there is whitespace before the next one. -/
theorem takeWhile_ne_nil (h : BeginsWord (t.dropWhile Text.isLayout) w rest) (ht : EndsWord t) :
    t.takeWhile Text.isLayout ≠ [] := by
  intro hnil
  have hdrop : t.dropWhile Text.isLayout = t := by
    simpa [hnil] using List.takeWhile_append_dropWhile (p := Text.isLayout) (l := t)
  rw [hdrop] at h
  obtain ⟨x, v, rfl, hx⟩ := h.run.exists_cons
  rw [ht x (by rw [← h.cover]; rfl)] at hx
  cases hx

end BeginsWord

section Words

variable {t w last rest : Text} {n : Node} {f : Fault}

theorem ofText?_eq_where : Keyword.ofText? w = some .WHERE ↔
    Text.upper w = Keyword.WHERE.spelling := by
  constructor
  · exact Keyword.upper_eq_of_ofText?
  · intro h
    rw [← Keyword.ofText?_spelling .WHERE]
    exact Keyword.ofText?_congr (h.trans (Keyword.upper_spelling .WHERE).symm)

theorem commandWord_eq_found : commandWord t = .found n rest ↔
    ∃ w, BeginsWord t w rest ∧ n = Node.leaf .reservedWord w rest := by
  have haccept : ∀ w : Text, ((Keyword.ofText? w).any fun k => k != .WHERE) = true ↔
      isReservedWord w = true ∧ Text.upper w ≠ Keyword.WHERE.spelling := by
    intro w
    rw [ne_eq, ← ofText?_eq_where, isReservedWord]
    cases Keyword.ofText? w with
    | none => simp
    | some k => simp
  rw [commandWord_eq_word]
  constructor
  · intro h
    obtain ⟨hne, haccepted, rfl, rfl⟩ := word_eq_found.mp h
    obtain ⟨hreserved, hother⟩ := (haccept _).mp haccepted
    exact ⟨_, ⟨List.takeWhile_append_dropWhile, Text.isRun_takeWhile hne, hreserved, hother⟩, rfl⟩
  · rintro ⟨w, h, rfl⟩
    rw [word_eq_found, h.takeWhile_eq, h.dropWhile_eq]
    exact ⟨h.run.1, (haccept w).mpr ⟨h.reserved, h.other⟩, rfl, rfl⟩

theorem commandWord_cases (t : Text) : commandWord t = .absent ∧ (∀ w rest, ¬BeginsWord t w rest) ∨
    ∃ w rest, BeginsWord t w rest ∧
      commandWord t = .found (Node.leaf .reservedWord w rest) rest := by
  cases h : commandWord t with
  | found n rest =>
      obtain ⟨w, hw, rfl⟩ := commandWord_eq_found.mp h
      exact Or.inr ⟨w, rest, hw, rfl⟩
  | absent =>
      refine Or.inl ⟨rfl, fun w rest hw => ?_⟩
      rw [commandWord_eq_found.mpr ⟨w, hw, rfl⟩] at h
      cases h
  | broken f => exact absurd h word_ne_broken

theorem partnerFollows_iff : partnerFollows w rest = true ↔
    ∃ v after, BeginsWord (rest.dropWhile Text.isLayout) v after ∧ arePaired w v = true := by
  unfold partnerFollows
  rcases commandWord_cases (rest.dropWhile Text.isLayout) with ⟨h, hnone⟩ | ⟨v, after, hv, h⟩
  · rw [h]
    simp [hnone]
  · rw [h]
    refine ⟨fun hpair => ⟨v, after, hv, hpair⟩, ?_⟩
    rintro ⟨v', after', hv', hpair⟩
    obtain ⟨rfl, _⟩ := hv.unique hv'
    exact hpair

/-- A word that is read under a condition. -/
theorem filter_commandWord_eq_found {keep : Node → Text → Bool} :
    ((commandWord t).bind fun n rest => if keep n rest then .found n rest else .absent) =
        .found n rest ↔
      ∃ w, BeginsWord t w rest ∧ keep (Node.leaf .reservedWord w rest) rest = true ∧
        n = Node.leaf .reservedWord w rest := by
  rcases commandWord_cases t with ⟨h, hnone⟩ | ⟨w, after, hw, h⟩
  · rw [h, Reading.bind_absent]
    simp [hnone]
  · rw [h, Reading.bind_found]
    constructor
    · intro hfound
      split at hfound
      next hkeep =>
        obtain ⟨rfl, rfl⟩ := Reading.found.inj hfound
        exact ⟨w, hw, hkeep, rfl⟩
      next => cases hfound
    · rintro ⟨v, hv, hkeep, rfl⟩
      obtain ⟨rfl, rfl⟩ := hw.unique hv
      rw [if_pos hkeep]

theorem filter_commandWord_ne_broken {keep : Node → Text → Bool} :
    ((commandWord t).bind fun n rest => if keep n rest then .found n rest else .absent) ≠
      .broken f := by
  rcases commandWord_cases t with ⟨h, _⟩ | ⟨w, after, _, h⟩
  · rw [h]
    exact nofun
  · rw [h, Reading.bind_found]
    split <;> exact nofun

theorem leadingWord_eq_found : leadingWord t = .found n rest ↔
    ∃ w, BeginsWord t w rest ∧ OpensRun w rest ∧ n = Node.leaf .reservedWord w rest := by
  simp only [leadingWord, filter_commandWord_eq_found, Bool.or_eq_true, partnerFollows_iff]
  rfl

/-- Whether a word in front of a rest belongs to a run behind the word `last`. -/
def Belongs (last w rest : Text) : Prop :=
  arePaired last w = true ∨ OpensRun w rest

theorem continuingWord_eq_found : continuingWord last t = .found n rest ↔
    ∃ w, BeginsWord t w rest ∧ Belongs last w rest ∧ n = Node.leaf .reservedWord w rest := by
  rw [continuingWord, orElse_eq_found, filter_commandWord_eq_found, leadingWord_eq_found]
  constructor
  · rintro (⟨w, hw, hpair, rfl⟩ | ⟨_, w, hw, hopens, rfl⟩)
    · exact ⟨w, hw, Or.inl hpair, rfl⟩
    · exact ⟨w, hw, Or.inr hopens, rfl⟩
  · rintro ⟨w, hw, hbelongs, rfl⟩
    by_cases hpair : arePaired last w = true
    · exact Or.inl ⟨w, hw, hpair, rfl⟩
    · refine Or.inr ⟨?_, w, hw, hbelongs.resolve_left hpair, rfl⟩
      rw [commandWord_eq_found.mpr ⟨w, hw, rfl⟩, Reading.bind_found]
      exact if_neg hpair

theorem continuingWord_ne_broken : continuingWord last t ≠ .broken f := by
  intro h
  unfold continuingWord Recognizer.orElse at h
  split at h
  next => exact filter_commandWord_ne_broken h
  next => exact filter_commandWord_ne_broken h

end Words

section Rounds

variable {σ : Type} {step : σ → Recognizer (List Node)} {next : σ → Node → σ}

/-- What a repetition reads, it reads round by round until its step is absent. -/
theorem Recognizer.Rounds.of_repeated (hadvances : ∀ s, Correspondence.Advances (step s))
    {s : σ} {t rest : Text} {ns : List Node}
    (h : Recognizer.repeated step next s t = .found ns rest) :
    ∃ s', Rounds step next s t ns s' rest ∧ step s' rest = .absent := by
  have hrounds : ∀ bound, t.length ≤ bound → repeatUpTo step next bound s t = .found ns rest →
      ∃ s', Rounds step next s t ns s' rest ∧ step s' rest = .absent := by
    clear h
    intro bound
    induction bound generalizing s t ns with
    | zero =>
        intro hbound h
        obtain rfl := List.length_eq_zero_iff.mp (Nat.le_zero.mp hbound)
        obtain ⟨rfl, rfl⟩ := Reading.found.inj h
        exact ⟨s, .done s [], (hadvances s).at_end⟩
    | succ bound ih =>
        intro hbound h
        unfold repeatUpTo at h
        split at h
        next as middle ha =>
          obtain ⟨bs, hb, rfl⟩ := Reading.map_eq_found.mp h
          have hshorter := (hadvances s).shorter t as middle ha
          obtain ⟨s', hmore, hend⟩ := ih (by omega) hb
          exact ⟨s', .round ha hshorter hmore, hend⟩
        next habsent =>
          obtain ⟨rfl, rfl⟩ := Reading.found.inj h
          exact ⟨s, .done s t, habsent⟩
        next => cases h
  exact hrounds t.length le_rfl h

/-- A repetition of steps that never break off never breaks off. -/
theorem Recognizer.repeated_ne_broken (hstep : ∀ s t f, step s t ≠ .broken f) (s : σ) (t : Text)
    (f : Fault) : Recognizer.repeated step next s t ≠ .broken f := by
  have hbound : ∀ bound s t, repeatUpTo step next bound s t ≠ .broken f := by
    intro bound
    induction bound with
    | zero => exact nofun
    | succ bound ih =>
        intro s t h
        unfold repeatUpTo at h
        split at h
        next as middle _ =>
          cases hmore : repeatUpTo step next bound (as.foldl next s) middle with
          | found ms rest => simp [hmore] at h
          | absent => simp [hmore] at h
          | broken f' =>
              obtain rfl : f' = f := by simpa [hmore] using h
              exact ih _ _ hmore
        next => cases h
        next f' hbroken => exact hstep s t f' hbroken
  exact hbound t.length s t

end Rounds

section Runs

/-- The words that belong to a run behind the word `last`, up to a rest where the next word
does not belong to it. -/
inductive Continues : Text → Text → List Text → Text → Prop
  | stop {last t} (h : ∀ w rest, BeginsWord (t.dropWhile Text.isLayout) w rest →
      ¬Belongs last w rest) : Continues last t [] t
  | word {last t w middle ws rest} (h : BeginsWord (t.dropWhile Text.isLayout) w middle)
      (hw : Belongs last w middle) (hmore : Continues w middle ws rest) :
      Continues last t (w :: ws) rest

variable {t last v middle rest : Text} {ws : List Text}

/-- A word that is paired with the one before it comes next in the run. -/
theorem Continues.head? (h : Continues last t ws rest)
    (hv : BeginsWord (t.dropWhile Text.isLayout) v middle) (hpair : arePaired last v = true) :
    ws.head? = some v := by
  cases h with
  | stop hstop => exact absurd (Or.inl hpair) (hstop v middle hv)
  | word hw _ _ => rw [List.head?_cons, (hw.unique hv).1]

theorem Continues.wordsTo (h : Continues last t ws rest) (ht : EndsWord t) (hne : ws ≠ []) :
    ∃ gap middle, gap ≠ [] ∧ (∀ x ∈ gap, Text.isLayout x = true) ∧ t = gap ++ middle ∧
      WordsTo middle ws rest := by
  induction h with
  | stop => exact absurd rfl hne
  | @word last t w middle ws rest hw _ hmore ih =>
      refine ⟨_, _, hw.takeWhile_ne_nil ht, List.all_eq_true.mp List.all_takeWhile,
        List.takeWhile_append_dropWhile.symm, ?_⟩
      cases ws with
      | nil =>
          cases hmore
          exact .last hw
      | cons v ws =>
          obtain ⟨gap', middle', hgap', hlayout', rfl, hwords⟩ :=
            ih hw.endsWord (List.cons_ne_nil v ws)
          exact .more hw hgap' hlayout' hwords

/-- Every word of a run is a clause word or is paired with a neighbour. -/
theorem Continues.joined (h : Continues last t ws rest) {before after : List Text} {w : Text}
    (hws : ws = before ++ w :: after) : isClauseWord w = true ∨
      (∃ v ∈ (last :: before).getLast?, arePaired v w = true) ∨
      ∃ v ∈ after.head?, arePaired w v = true := by
  induction h generalizing before with
  | stop => simp at hws
  | @word last t x middle ws rest hx hbelongs hmore ih =>
      cases before with
      | nil =>
          obtain ⟨rfl, rfl⟩ := List.cons.inj hws
          rcases hbelongs with hpair | hclause | ⟨v, _, hv, hpair⟩
          · exact Or.inr (Or.inl ⟨last, rfl, hpair⟩)
          · exact Or.inl hclause
          · exact Or.inr (Or.inr ⟨v, hmore.head? hv hpair, hpair⟩)
      | cons b before =>
          obtain ⟨rfl, htail⟩ := List.cons.inj hws
          rw [List.getLast?_cons_cons]
          exact ih htail

/-- The word that comes next does not belong to a run that has ended. -/
theorem Continues.ends (h : Continues last t ws rest) {w after : Text}
    (hw : BeginsWord (rest.dropWhile Text.isLayout) w after) :
    ∀ v ∈ (last :: ws).getLast?, ¬Belongs v w after := by
  induction h with
  | stop hstop =>
      rintro _ ⟨⟩
      exact hstop w after hw
  | word _ _ _ ih =>
      rw [List.getLast?_cons_cons]
      exact ih hw

theorem Continues.unique {ws' : List Text} {rest' : Text} (h : Continues last t ws rest)
    (h' : Continues last t ws' rest') : ws = ws' ∧ rest = rest' := by
  induction h generalizing ws' with
  | stop hstop =>
      cases h' with
      | stop => exact ⟨rfl, rfl⟩
      | word hw hbelongs _ => exact absurd hbelongs (hstop _ _ hw)
  | word hw hbelongs _ ih =>
      cases h' with
      | stop hstop => exact absurd hbelongs (hstop _ _ hw)
      | word hw' _ hmore' =>
          obtain ⟨rfl, rfl⟩ := hw.unique hw'
          obtain ⟨rfl, rfl⟩ := ih hmore'
          exact ⟨rfl, rfl⟩

/-- Words that are a run from the second on are read one by one from the first on. -/
theorem WordsTo.continues {w : Text} {us : List Text} (h : WordsTo t us rest)
    (hus : us = w :: ws)
    (hjoined : ∀ before x after, ws = before ++ x :: after → isClauseWord x = true ∨
      (∃ v ∈ (w :: before).getLast?, arePaired v x = true) ∨
      ∃ v ∈ after.head?, arePaired x v = true)
    (hends : ∀ x after, BeginsWord (rest.dropWhile Text.isLayout) x after →
      ∀ v ∈ (w :: ws).getLast?, ¬Belongs v x after) :
    ∃ middle, BeginsWord t w middle ∧ Continues w middle ws rest := by
  induction h generalizing w ws with
  | last hw =>
      obtain ⟨rfl, rfl⟩ := List.cons.inj hus
      exact ⟨_, hw, .stop fun x after hx => hends x after hx _ rfl⟩
  | @more t _ gap middle us rest hw hne hlayout hmore ih =>
      obtain ⟨rfl, rfl⟩ := List.cons.inj hus
      refine ⟨_, hw, ?_⟩
      obtain ⟨v, vs, rfl⟩ : ∃ v vs, us = v :: vs := by
        cases hmore <;> exact ⟨_, _, rfl⟩
      obtain ⟨further, hv, hcontinues⟩ := ih rfl (fun before x after hvs => by
        have := hjoined (v :: before) x after (congrArg (v :: ·) hvs)
        rwa [List.getLast?_cons_cons] at this) (fun x after hx => by
        have := hends x after hx
        rwa [List.getLast?_cons_cons] at this)
      refine .word ((hv.dropLayout hlayout).symm ▸ hv) ?_ hcontinues
      rcases hjoined [] v vs rfl with hclause | ⟨x, hx, hpair⟩ | ⟨x, hx, hpair⟩
      · exact Or.inr (Or.inl hclause)
      · obtain rfl := Option.some.inj hx
        exact Or.inl hpair
      · refine Or.inr (Or.inr ?_)
        cases hcontinues with
        | stop => cases hx
        | word hnext _ _ =>
            obtain rfl := Option.some.inj hx
            exact ⟨_, _, hnext, hpair⟩

/-- What it means that a word does not belong behind the last word of a run. -/
theorem forall_not_belongs_iff {w x after : Text} :
    (∀ v ∈ (w :: ws).getLast?, ¬Belongs v x after) ↔
      isClauseWord x = false ∧ (∀ v ∈ (w :: ws).getLast?, arePaired v x = false) ∧
        ∀ v further, BeginsWord (after.dropWhile Text.isLayout) v further →
          arePaired x v = false := by
  obtain ⟨last, hlast⟩ : ∃ last, (w :: ws).getLast? = some last :=
    ⟨_, List.getLast?_eq_some_getLast (List.cons_ne_nil w ws)⟩
  simp only [hlast, Option.mem_def, Option.some.injEq, forall_eq', Belongs, OpensRun, not_or,
    not_exists, not_and, Bool.not_eq_true]
  exact and_left_comm

/-- A run that cannot be longer is one that is read word by word to its end. -/
theorem maximalRun_iff : MaximalRun t ws rest ↔ ∃ w middle more, ws = w :: more ∧
    BeginsWord t w middle ∧ OpensRun w middle ∧ Continues w middle more rest := by
  constructor
  · intro h
    obtain ⟨w, more, rfl⟩ : ∃ w more, ws = w :: more := by
      cases h.reads <;> exact ⟨_, _, rfl⟩
    obtain ⟨middle, hw, hmore⟩ := h.reads.continues rfl
      (fun before x after hmore => h.joined (w :: before) x after (congrArg (w :: ·) hmore))
      (fun x after hx => forall_not_belongs_iff.mpr (h.maximal x after hx))
    refine ⟨w, middle, more, rfl, hw, ?_, hmore⟩
    rcases h.joined [] w more rfl with hclause | ⟨v, hv, _⟩ | ⟨v, hv, hpair⟩
    · exact Or.inl hclause
    · cases hv
    · cases hmore with
      | stop => cases hv
      | word hnext _ _ =>
          obtain rfl := Option.some.inj hv
          exact Or.inr ⟨_, _, hnext, hpair⟩
  · rintro ⟨w, middle, more, rfl, hw, hopens, hmore⟩
    refine ⟨?_, ?_, ?_⟩
    · cases more with
      | nil =>
          cases hmore
          exact .last hw
      | cons v vs =>
          obtain ⟨gap, after, hgap, hlayout, rfl, hwords⟩ :=
            hmore.wordsTo hw.endsWord (List.cons_ne_nil v vs)
          exact .more hw hgap hlayout hwords
    · intro before x after hws
      cases before with
      | nil =>
          obtain ⟨rfl, rfl⟩ := List.cons.inj hws
          rcases hopens with hclause | ⟨v, _, hv, hpair⟩
          · exact Or.inl hclause
          · exact Or.inr (Or.inr ⟨v, hmore.head? hv hpair, hpair⟩)
      | cons b before =>
          obtain ⟨rfl, htail⟩ := List.cons.inj hws
          exact hmore.joined htail
    · intro x after hx
      exact forall_not_belongs_iff.mp (hmore.ends hx)

theorem MaximalRun.unique {ws' : List Text} {rest' : Text} (h : MaximalRun t ws rest)
    (h' : MaximalRun t ws' rest') : ws = ws' ∧ rest = rest' := by
  obtain ⟨w, middle, more, rfl, hw, _, hmore⟩ := maximalRun_iff.mp h
  obtain ⟨v, _, more', rfl, hv, _, hmore'⟩ := maximalRun_iff.mp h'
  obtain ⟨rfl, rfl⟩ := hw.unique hv
  obtain ⟨rfl, rfl⟩ := hmore.unique hmore'
  exact ⟨rfl, rfl⟩

end Runs

section Reading

variable {t last last' rest : Text} {n : Node} {ns : List Node}

theorem spaced_continuingWord_eq_found :
    Grammar.spaced (continuingWord last) t = .found ns rest ↔
      ∃ w, BeginsWord (t.dropWhile Text.isLayout) w rest ∧ Belongs last w rest ∧
        ns = gapNodes t ++ [Node.leaf .reservedWord w rest] := by
  rw [spaced_eq, Reading.map_eq_found]
  simp only [continuingWord_eq_found]
  constructor
  · rintro ⟨n, ⟨w, hw, hbelongs, rfl⟩, rfl⟩
    exact ⟨w, hw, hbelongs, rfl⟩
  · rintro ⟨w, hw, hbelongs, rfl⟩
    exact ⟨_, ⟨w, hw, hbelongs, rfl⟩, rfl⟩

theorem spaced_continuingWord_ne_broken (last t : Text) (f : Fault) :
    Grammar.spaced (continuingWord last) t ≠ .broken f := by
  rw [spaced_eq]
  cases h : continuingWord last (t.dropWhile Text.isLayout) with
  | found n rest => exact nofun
  | absent => exact nofun
  | broken f' => exact absurd h continuingWord_ne_broken

/-- The category of each part of a run, and the words among the parts. -/
structure SpellsWords (ns : List Node) (ws : List Text) : Prop where
  categories : ns.map Node.category = ws.flatMap fun _ => [.whitespace, .reservedWord]
  words : (ns.filter fun m => m.category = .reservedWord).map Node.spelling = ws

/-- What is read round by round until no word belongs is the rest of a run. -/
theorem continues_of_rounds
    (h : Rounds (fun last => Grammar.spaced (continuingWord last)) lastWord last t ns last' rest)
    (hend : Grammar.spaced (continuingWord last') rest = .absent) (ht : EndsWord t) :
    ∃ ws, Continues last t ws rest ∧ SpellsWords ns ws := by
  induction h with
  | done last t =>
      refine ⟨[], .stop fun w rest hw hbelongs => ?_, rfl, rfl⟩
      rw [spaced_continuingWord_eq_found.mpr ⟨w, hw, hbelongs, rfl⟩] at hend
      cases hend
  | @round last last' t middle rest ns ms hstep _ _ ih =>
      obtain ⟨w, hw, hbelongs, rfl⟩ := spaced_continuingWord_eq_found.mp hstep
      obtain ⟨gap, hgap, hspace⟩ : ∃ gap, gapNodes t = [gap] ∧ gap.category = .whitespace := by
        unfold gapNodes
        split
        next hnil => exact absurd hnil (hw.takeWhile_ne_nil ht)
        next => exact ⟨_, rfl, rfl⟩
      have hlast : (gapNodes t ++ [Node.leaf .reservedWord w middle]).foldl lastWord last = w := by
        simp [hgap, lastWord, Node.leaf]
      rw [hlast] at ih
      obtain ⟨ws, hmore, hspells⟩ := ih hend hw.endsWord
      refine ⟨w :: ws, .word hw hbelongs hmore, ?_, ?_⟩
      · rw [hgap, List.map_append, hspells.categories, List.singleton_append, List.map_cons,
          hspace]
        rfl
      · rw [hgap, List.singleton_append, List.filter_append, List.map_append, hspells.words,
          List.filter_cons_of_neg (by simp [hspace])]
        rfl

theorem SpellsWords.categories_eq {ws : List Text} (h : SpellsWords ns ws) :
    ns.map Node.category =
      (List.replicate ws.length [Category.whitespace, .reservedWord]).flatten := by
  rw [h.categories, List.flatMap_def, List.map_const']

theorem words_branch (c : Category) (ns : List Node) (rest : Text) :
    (Node.branch c (Node.chain ns) rest).words =
      (ns.filter fun m => m.category = .reservedWord).map Node.spelling := by
  have hfilter : ∀ ms : List Node,
      (ms.filter fun m => m.category = .reservedWord).map Node.spelling =
        ((ms.map Node.label).filter fun l => l.1 = .reservedWord).map Prod.snd := by
    intro ms
    rw [List.filter_map, List.map_map]
    rfl
  change ((Node.chain ns).filter _).map _ = _
  rw [hfilter, hfilter, Node.map_chain fun _ _ _ => rfl]

/-- A run is read where its first word is, and it is missing elsewhere. -/
theorem reservedWordSequence_cases (t : Text) :
    reservedWordSequence t = .absent ∧ leadingWord t = .absent ∨
      (∃ n rest, reservedWordSequence t = .found n rest) ∧
        ∃ n rest, leadingWord t = .found n rest := by
  cases hfirst : leadingWord t with
  | absent => exact Or.inl ⟨node_of_absent (andThen_of_absent hfirst), rfl⟩
  | broken f => exact absurd hfirst filter_commandWord_ne_broken
  | found n middle =>
      refine Or.inr ⟨?_, n, middle, rfl⟩
      cases hmore : repeated (fun last => Grammar.spaced (continuingWord last)) lastWord n.spelling
          middle with
      | absent => exact absurd hmore (repeatUpTo_ne_absent _ _ _ _ _)
      | broken f => exact absurd hmore (repeated_ne_broken spaced_continuingWord_ne_broken _ _ f)
      | found ns rest => exact ⟨_, rest, node_of_found (andThen_of_founds hfirst hmore)⟩

/-- What is read is a run that cannot be longer. -/
theorem maximalRun_of_reservedWordSequence (h : reservedWordSequence t = .found n rest) :
    n.following = rest ∧ MaximalRun t n.words rest ∧
      ∃ k, n.children.map Node.category = .reservedWord ::
        (List.replicate k [Category.whitespace, .reservedWord]).flatten := by
  obtain ⟨parts, hparts, rfl⟩ := node_eq_found.mp h
  obtain ⟨first, middle, ns, hfirst, hmore, rfl⟩ := andThen_eq_found.mp hparts
  obtain ⟨w, hw, hopens, rfl⟩ := leadingWord_eq_found.mp hfirst
  obtain ⟨last, hrounds, hend⟩ := Rounds.of_repeated Correspondence.Lawful.continuingWord_advances hmore
  obtain ⟨ws, hcontinues, hspells⟩ := continues_of_rounds hrounds hend hw.endsWord
  refine ⟨rfl, maximalRun_iff.mpr ⟨w, middle, ws, ?_, hw, hopens, hcontinues⟩, ws.length, ?_⟩
  · rw [words_branch]
    exact congrArg (w :: ·) hspells.words
  · change (Node.chain _).map _ = _
    rw [Node.map_chain fun _ _ _ => rfl]
    exact congrArg (.reservedWord :: ·) hspells.categories_eq

/-- Runs of keywords are the maximal ones. The keywords at the front of a text are always
read without an error, unless no word there opens a run. Keywords and whitespace alternate in
what is read. The keywords are a run that cannot be longer, and there is no other one. -/
theorem reservedWordSequence_is_maximal_run (depth : Nat) (source input : Text) :
    (∀ e, recognize depth source .reservedWordSequence .optional input ≠ .error e) ∧
      (recognize depth source .reservedWordSequence .optional input = .ok none ↔
        ¬∃ w rest, BeginsWord input w rest ∧ OpensRun w rest) ∧
      ∀ n, recognize depth source .reservedWordSequence .optional input = .ok (some n) →
        n.category = .reservedWordSequence ∧ n.spelling ++ n.following = input ∧
          (∃ k, n.children.map Node.category = .reservedWord ::
            (List.replicate k [Category.whitespace, .reservedWord]).flatten) ∧
          MaximalRun input n.words n.following ∧
          ∀ ws rest, MaximalRun input ws rest → ws = n.words ∧ rest = n.following := by
  rcases reservedWordSequence_cases input with ⟨habsent, hfirst⟩ |
    ⟨⟨n, rest, hfound⟩, first, middle, hfirst⟩
  · rw [recognize_of_absent (p := .reservedWordSequence) habsent]
    refine ⟨nofun, iff_of_true rfl ?_, nofun⟩
    rintro ⟨w, rest, hw, hopens⟩
    rw [leadingWord_eq_found.mpr ⟨w, hw, hopens, rfl⟩] at hfirst
    cases hfirst
  · rw [recognize_of_found (p := .reservedWordSequence) hfound]
    obtain ⟨w, hw, hopens, -⟩ := leadingWord_eq_found.mp hfirst
    refine ⟨nofun, iff_of_false nofun (not_not_intro ⟨w, middle, hw, hopens⟩), ?_⟩
    rintro _ ⟨⟩
    obtain ⟨rfl, hmaximal, hcategories⟩ := maximalRun_of_reservedWordSequence hfound
    have hderives := reservedWordSequence_finds input n _ hfound
    exact ⟨Phrase.label_mem_part.mp hderives.labels, hderives.tiles.1, hcategories, hmaximal,
      fun ws rest h => h.unique hmaximal⟩

/-- `KEY` ends the run, since neither neighbour is paired with it. -/
theorem reservedWordSequence_is_maximal_run_pairs :
    ∃ n, recognize 1 [] .reservedWordSequence .optional "if EXISTS Per partition key ON".toList =
        .ok (some n) ∧
      MaximalRun "if EXISTS Per partition key ON".toList
        ["if".toList, "EXISTS".toList, "Per".toList, "partition".toList] n.following := by
  have hwords : (recognize 1 [] .reservedWordSequence .optional
      "if EXISTS Per partition key ON".toList).toOption.join.map Node.words =
        some ["if".toList, "EXISTS".toList, "Per".toList, "partition".toList] := by
    decide +kernel
  obtain ⟨n, hn, hwords⟩ := Option.map_eq_some_iff.mp hwords
  have hanswer : recognize 1 [] .reservedWordSequence .optional
      "if EXISTS Per partition key ON".toList = .ok (some n) := by
    generalize recognize 1 [] .reservedWordSequence .optional
      "if EXISTS Per partition key ON".toList = x at hn ⊢
    cases x with
    | error e => cases hn
    | ok m => exact congrArg Except.ok hn
  obtain ⟨-, -, -, hmaximal, -⟩ := (reservedWordSequence_is_maximal_run 1 [] _).2.2 n hanswer
  exact ⟨n, hanswer, hwords ▸ hmaximal⟩

end Reading

end QueryTree
