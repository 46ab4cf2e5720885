import QueryTree.Grammar.Production
import QueryTree.Proofs.Derivation.Ahead

/-!
# Demanded productions

A production that is demanded is read like one that is offered. Only its absence becomes an
error, which names the production and the text where it is missing. A production that is made
of parts makes the demand of the part that it begins with, so it has to be shown that nothing
after this part can make it absent. A choice makes the demand of its last alternative. A
collection may also be absent after the part that opens it, and then makes the demand a second
time.
-/

namespace QueryTree

open Recognizer

variable {α β : Type}

theorem Reading.bind_ne_absent {x : Reading α} {next : α → Recognizer β} (hx : x ≠ .absent)
    (hnext : ∀ a rest, next a rest ≠ .absent) : x.bind next ≠ .absent := by
  cases x with
  | found a rest => exact hnext a rest
  | absent => exact absurd rfl hx
  | broken f => simp

theorem Reading.map_ne_absent {x : Reading α} (f : α → β) (hx : x ≠ .absent) :
    x.map f ≠ .absent :=
  bind_ne_absent hx fun _ _ => by simp

namespace Recognizer

variable {u v : Recognizer (List Node)}

theorem orFault_ne_absent (r : Recognizer α) (fault : Text → Fault) (t : Text) :
    r.orFault fault t ≠ .absent := by
  unfold orFault orElse
  cases r t <;> simp

theorem required_ne_absent (r : Recognizer α) (c : Category) (t : Text) :
    r.required c t ≠ .absent :=
  orFault_ne_absent r _ t

theorem one_ne_absent {r : Recognizer Node} (hr : ∀ t, r t ≠ .absent) (t : Text) :
    r.one t ≠ .absent :=
  Reading.map_ne_absent _ (hr t)

theorem spaced_ne_absent {r : Recognizer Node} (hr : ∀ t, r t ≠ .absent) (t : Text) :
    Grammar.spaced r t ≠ .absent :=
  seq_ne_absent (optional_ne_absent _) (one_ne_absent hr) t

/-- To demand what is never absent changes nothing. -/
theorem required_eq_self {r : Recognizer α} (c : Category) (hr : ∀ t, r t ≠ .absent) :
    r.required c = r := by
  funext t
  unfold required orFault orElse
  cases hx : r t with
  | found a rest => rfl
  | absent => exact absurd hx (hr t)
  | broken f => rfl

/-- A demand may be made of the whole instead of its first part, if only this part can be
absent. -/
theorem required_bind (r : Recognizer α) (c : Category) {next : Text → α → Recognizer β}
    (hnext : ∀ t a rest, next t a rest ≠ .absent) :
    (fun t => (r.required c t).bind (next t)) = required c fun t => (r t).bind (next t) := by
  funext t
  cases hr : r t with
  | found a rest =>
      rw [Grammar.required_of_found c hr, Reading.bind_found, required, orFault, orElse, hr,
        Reading.bind_found]
      cases hx : next t a rest with
      | absent => exact absurd hx (hnext t a rest)
      | found b rest' => rfl
      | broken f => rfl
  | absent => simp [required, orFault, orElse, hr]
  | broken f => simp [required, orFault, orElse, hr]

theorem one_required (r : Recognizer Node) (c : Category) :
    (r.required c).one = r.one.required c :=
  required_bind r c nofun

theorem node_required (d c : Category) (u : Recognizer (List Node)) :
    node d (u.required c) = (node d u).required c :=
  required_bind u c nofun

theorem wrap_required (d c : Category) (r : Recognizer Node) :
    wrap d (r.required c) = (wrap d r).required c := by
  rw [wrap, one_required, node_required]
  rfl

/-- To demand the last of some alternatives is to demand that there is one of them. -/
theorem orElse_required (r s : Recognizer α) (c : Category) :
    r.orElse (s.required c) = (r.orElse s).required c := by
  funext t
  unfold required orFault orElse
  cases r t <;> rfl

theorem refused_required (r : Recognizer Node) (c : Category) :
    (refused (r.required c) : Recognizer α) = (refused r).required c :=
  required_bind r c nofun

theorem required_seq (u : Recognizer (List Node)) (c : Category) (hv : ∀ t, v t ≠ .absent) :
    (u.required c).seq v = (u.seq v).required c :=
  required_bind u c fun _ _ rest => Reading.map_ne_absent _ (hv rest)

theorem required_andThen (r : Recognizer Node) (c : Category)
    {parts : Node → Recognizer (List Node)} (hparts : ∀ n t, parts n t ≠ .absent) :
    (r.required c).andThen parts = (r.andThen parts).required c :=
  required_bind r c fun _ n rest => Reading.map_ne_absent _ (hparts n rest)

end Recognizer

namespace Grammar

variable {first next : Recognizer Node}

theorem stringUnder_mandatory : stringUnder .mandatory = string.required .string := by
  rw [stringUnder, under_mandatory, one_required, required_seq _ _ (optional_ne_absent _),
    required_seq _ _ (one_ne_absent (orFault_ne_absent _ _)), node_required]
  rfl

theorem reservedWordSequenceUnder_mandatory : reservedWordSequenceUnder .mandatory =
    reservedWordSequence.required .reservedWordSequence := by
  have hmore : ∀ (first : Node) (t : Text), repeated (fun last =>
      Grammar.spaced (continuingWord last)) lastWord first.spelling t ≠ .absent := fun _ _ =>
    repeatUpTo_ne_absent _ _ _ _ _
  rw [reservedWordSequenceUnder, under_mandatory, required_andThen _ _ hmore, node_required]
  rfl

/-- A word is missing in one way, be it that there are no letters or that it is refused. -/
theorem wordUnder_mandatory (c : Category) (accept : Text → Bool) :
    wordUnder .mandatory c accept = (word c accept).required c := by
  funext t
  rw [required, orFault, orElse, word_eq]
  unfold wordUnder
  dsimp only
  split <;> rfl

theorem itemNameCaseInsensitiveUnder_mandatory : itemNameCaseInsensitiveUnder .mandatory =
    itemNameCaseInsensitive.required .itemNameCaseInsensitive :=
  wordUnder_mandatory _ _

/-- An opened name is still absent if it is not made of letters and digits alone. -/
theorem itemNameCaseSensitiveUnder_mandatory : itemNameCaseSensitiveUnder .mandatory =
    itemNameCaseSensitive.required .itemNameCaseSensitive := by
  funext t
  rw [required, orFault, orElse, itemNameCaseSensitive]
  unfold itemNameCaseSensitiveUnder
  -- the quote that opens it, the quote that closes it, the letters between them
  split
  · split
    · rfl
    · dsimp only
      split <;> rfl
  · rfl

theorem itemNameUnder_mandatory : itemNameUnder .mandatory = itemName.required .itemName := by
  rw [itemNameUnder, under_mandatory, wrap_required]
  rfl

theorem literalUnder_mandatory : literalUnder .mandatory = literal.required .literal := by
  rw [literalUnder, under_mandatory, wrap_required]
  rfl

/-- Whatever a name would be called, it is a selector item that is missing. -/
theorem selectorUnder_mandatory (role : Category) :
    selectorUnder .mandatory role = (selector role).required .selectorItem := by
  rw [selectorUnder, under_mandatory, wrap_required, orElse_required, orElse_required]
  rfl

/-- An opened collection is still absent if neither an element nor its end follows. This is
found out behind the opening, but it is the whole collection that is missing. -/
theorem collectionUnder_mandatory (c : Category) (opening : Recognizer Node) (closing : Char)
    (finish : Category) (room : Nat) :
    collectionUnder .mandatory c opening first next closing finish room =
      (collectionUnder .optional c opening first next closing finish room).required c := by
  cases room with
  | zero => exact refused_required opening c
  | succ room =>
      funext t
      simp only [collectionUnder, under, orFaultUnder, required, orFault, orElse, node, seq, one]
      cases opening t with
      | absent => rfl
      | broken f => rfl
      | found n rest =>
          simp only [Reading.map_found, Reading.bind_found]
          cases elements first next (delimiter closing finish)
            (fun rest => .unterminated c closing (.start rest)) rest <;> rfl

theorem commandUnder_mandatory (room : Nat) :
    commandUnder .mandatory room = (command room).required .command := by
  cases room with
  | zero => exact refused_required reservedWordSequence .command
  | succ room =>
      have hitems : ∀ words t, ((commandItems room (keywordsOf words)).seq
          (Recognizer.optional (Grammar.spaced (command room)))) t ≠ .absent := fun _ =>
        seq_ne_absent (fun _ => repeatUpTo_ne_absent _ _ _ _ _) (optional_ne_absent _)
      exact (congrArg (node .command) (required_andThen _ _ hitems)).trans
        (node_required _ _ _)

theorem conditionItemUnder_mandatory :
    conditionItemUnder .mandatory = conditionItem.required .conditionItem := by
  rw [conditionItemUnder, under_mandatory, one_required,
    required_seq _ _ (spaced_ne_absent (required_ne_absent _ _)),
    required_seq _ _ (spaced_ne_absent (required_ne_absent _ _)), node_required]
  rfl

/-- To demand a chain of comparisons is to demand its first comparison. -/
theorem conditionChain_mandatory :
    conditionChain .mandatory = (conditionChain .optional).required .conditionItem := by
  unfold conditionChain
  rw [conditionItemUnder_mandatory, one_required, required_seq _ _ (many_ne_absent _),
    node_required]
  rfl

theorem conditionUnder_mandatory :
    conditionUnder .mandatory = condition.required .condition := by
  have hchain : ∀ t, conditionChain .mandatory t ≠ .absent :=
    conditionChain_mandatory ▸ required_ne_absent _ _
  rw [conditionUnder, under_mandatory, one_required,
    required_seq _ _ (one_ne_absent (required_ne_absent _ _)),
    required_seq _ _ (one_ne_absent hchain), node_required]
  rfl

theorem statement_ne_absent (depth : Nat) (t : Text) : statement depth t ≠ .absent := by
  have hparts : statementParts depth t ≠ .absent :=
    seq_ne_absent (seq_ne_absent (seq_ne_absent (seq_ne_absent (optional_ne_absent _)
      (one_ne_absent (required_ne_absent _ _))) (optional_ne_absent _)) (optional_ne_absent _))
      (optional_ne_absent _) t
  refine Reading.bind_ne_absent hparts fun parts rest => ?_
  split <;> simp

end Grammar

namespace Production

theorem recognizer_optional (depth : Nat) (p : Production) :
    p.recognizer depth .optional = p.offered depth := by
  cases p <;> rfl

/-- A demand changes nothing but absence. -/
theorem recognizer_mandatory (depth : Nat) (p : Production) :
    p.recognizer depth .mandatory = (p.offered depth).required p.category := by
  cases p with
  | string => exact Grammar.stringUnder_mandatory
  | reservedWordSequence => exact Grammar.reservedWordSequenceUnder_mandatory
  | itemNameCaseInsensitive => exact Grammar.itemNameCaseInsensitiveUnder_mandatory
  | itemNameCaseSensitive => exact Grammar.itemNameCaseSensitiveUnder_mandatory
  | itemName => exact Grammar.itemNameUnder_mandatory
  | literal => exact Grammar.literalUnder_mandatory
  | selectorItem => exact Grammar.selectorUnder_mandatory .selectorItem
  | arrayLiteral => exact Grammar.collectionUnder_mandatory _ _ _ _ depth
  | mapLiteral => exact Grammar.collectionUnder_mandatory _ _ _ _ depth
  | command => exact Grammar.commandUnder_mandatory depth
  | condition => exact Grammar.conditionUnder_mandatory
  | conditionChain => exact Grammar.conditionChain_mandatory
  | conditionItem => exact Grammar.conditionItemUnder_mandatory
  | statement => exact (required_eq_self _ (Grammar.statement_ne_absent depth)).symm
  | _ => rfl

/-- What is offered and found is found under a demand as well. -/
theorem recognizer_of_found {depth : Nat} {p : Production} {t rest : Text} {n : Node}
    (demand : Demand) (h : p.offered depth t = .found n rest) :
    p.recognizer depth demand t = .found n rest := by
  cases demand with
  | optional => rwa [recognizer_optional]
  | mandatory => rw [recognizer_mandatory, Grammar.required_of_found _ h]

open Grammar in
/-- The error names the category of the nodes that the production reads. -/
theorem category_of_offered {depth : Nat} {p : Production} {t rest : Text} {n : Node}
    (hp : p ≠ .conditionChain) (h : p.offered depth t = .found n rest) :
    n.category = p.category := by
  have hfinds : ∀ {r : Recognizer Node} {c : Category}, r.Finds (Phrase.part c) →
      r t = .found n rest → n.category = c :=
    fun hr hn => Phrase.label_mem_part.mp (hr t n rest hn).labels
  have hsingle : ∀ {c : Category} {q : Char → Bool}, single c q t = .found n rest →
      n.category = c := by
    intro c q hn
    obtain ⟨_, _, _, rfl⟩ := single_eq_found.mp hn
    rfl
  have hword : ∀ {c : Category} {accept : Text → Bool}, word c accept t = .found n rest →
      n.category = c := by
    intro c accept hn
    obtain ⟨_, _, rfl, _⟩ := word_eq_found.mp hn
    rfl
  cases p with
  | whitespace => exact hfinds whitespace_finds h
  | chars =>
      obtain ⟨_, rfl, _⟩ := run_eq_found.mp h
      rfl
  | number => exact hfinds number_finds h
  | hexBlob => exact hfinds hexBlob_finds h
  | symbol => exact hsingle h
  | accessor => exact hsingle h
  | placeholder => exact hsingle h
  | mapSeparator => exact hsingle h
  | terminator => exact hsingle h
  | operator => exact hfinds operator_finds h
  | reservedWord => exact hword h
  | whereKeyword => exact hfinds whereKeyword_finds h
  | inputCharacters =>
      change Grammar.inputCharacters t = _ at h
      unfold Grammar.inputCharacters at h
      split at h
      · cases h
      · obtain ⟨rfl, _⟩ := Reading.found.inj h
        rfl
  | string => exact hfinds string_finds h
  | delimiter x c => exact hsingle h
  | keyword words c =>
      change Grammar.oneOf words c t = _ at h
      unfold Grammar.oneOf at h
      exact hword h
  | reservedWordSequence => exact hfinds reservedWordSequence_finds h
  | itemNameCaseInsensitive => exact hfinds itemNameCaseInsensitive_finds h
  | itemNameCaseSensitive => exact hfinds itemNameCaseSensitive_finds h
  | itemName => exact hfinds itemName_finds h
  | literal => exact hfinds literal_finds h
  | selectorItem => exact hfinds selectorItem_finds h
  | arrayLiteral => exact hfinds (arrayLiteral_finds depth) h
  | mapLiteral => exact hfinds (mapLiteral_finds depth) h
  | command => exact hfinds (command_finds depth) h
  | condition => exact hfinds condition_finds h
  | conditionChain => exact absurd rfl hp
  | conditionItem => exact hfinds (conditionItem_finds .optional) h
  | statement => exact hfinds (statement_finds depth) h

end Production

section Answers

variable {depth : Nat} {source input rest : Text} {p : Production} {demand : Demand} {n : Node}

theorem recognize_of_absent (h : p.recognizer depth demand input = .absent) :
    recognize depth source p demand input = .ok none := by
  rw [recognize, h]

theorem recognize_of_found (h : p.recognizer depth demand input = .found n rest) :
    recognize depth source p demand input = .ok (some n) := by
  rw [recognize, h]

end Answers

/-- A demand only turns absence into an error. Under every limit and at every input, what an
offered production finds is found if it is demanded, an error stays the same error, and
where an offered production is absent, to demand it is an error at the input with all of the
input as the text that was found. The error names the category of the nodes that the
production reads, but for a chain of comparisons that of its first comparison. -/
theorem demand_refuses_absence (depth : Nat) (source input : Text) (p : Production) :
    (∀ n, recognize depth source p .optional input = .ok (some n) →
      recognize depth source p .mandatory input = .ok (some n) ∧
        (p ≠ .conditionChain → n.category = p.category)) ∧
    (∀ e, recognize depth source p .optional input = .error e →
      recognize depth source p .mandatory input = .error e) ∧
    (recognize depth source p .optional input = .ok none →
      recognize depth source p .mandatory input =
        .error (.expected p.category input ((Place.start input).offset (Text.byteSize source)))) := by
  unfold recognize
  rw [p.recognizer_optional, p.recognizer_mandatory]
  cases h : p.offered depth input with
  | found n rest =>
      rw [Grammar.required_of_found _ h]
      refine ⟨fun m hm => ⟨hm, fun hp => ?_⟩, fun _ he => ?_, fun hn => ?_⟩
      · obtain rfl : n = m := Option.some.inj (Except.ok.inj hm)
        exact p.category_of_offered hp h
      · cases he
      · cases hn
  | absent =>
      have hrequired : (p.offered depth).required p.category input =
          .broken (.expected p.category input) := by
        rw [required, orFault, Grammar.orElse_of_absent h]
      rw [hrequired]
      refine ⟨fun _ hm => ?_, fun _ he => ?_, fun _ => rfl⟩
      · cases hm
      · cases he
  | broken f =>
      rw [required, orFault, Grammar.orElse_of_broken h]
      refine ⟨fun _ hm => ?_, fun e he => he, fun hn => ?_⟩
      · cases hm
      · cases hn

/-- A bracket that opens no array, and a chain without a first comparison. -/
theorem demand_refuses_absence_bracket :
    recognize 1 "a [ ;".toList .arrayLiteral .mandatory "[ ;".toList =
        .error (.expected .arrayLiteral "[ ;".toList 2) ∧
      recognize 1 "a = ; ".toList .conditionChain .mandatory "= ;".toList =
        .error (.expected .conditionItem "= ;".toList 3) :=
  ⟨(demand_refuses_absence 1 "a [ ;".toList "[ ;".toList .arrayLiteral).2.2 (by decide +kernel),
    (demand_refuses_absence 1 "a = ; ".toList "= ;".toList .conditionChain).2.2
      (by decide +kernel)⟩

end QueryTree
