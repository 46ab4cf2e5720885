import QueryTree.Proofs.Correspondence.Basic
import QueryTree.Proofs.Derivation.Ahead

/-!
# The grammar respects correspondences

A correspondence is lawful if the productions that look at characters agree under it
and it is kept by the building of nodes. Then every production agrees with itself, up to
the statement: corresponding sources are read into corresponding trees.
-/

namespace QueryTree

open Recognizer Grammar

/-- The characters that stand alone in a production. -/
def Grammar.punctuation : Text :=
  ['.', ':', ';', ',', '[', ']', '\x7b', '\x7d']

namespace Correspondence

/-- The laws under which the grammar respects a correspondence. -/
structure Lawful (C : Correspondence) : Prop where
  nil_iff : ∀ t u, C.text t u → (t = [] ↔ u = [])
  dropLayout : ∀ t u, C.text t u →
    C.text (t.dropWhile Text.isLayout) (u.dropWhile Text.isLayout)
  /-- Levels of nesting run out together, or else running out is excused. -/
  room : ∀ k l, C.room k l →
    k = 0 ∧ l = 0 ∨ (∃ i j, k = i + 1 ∧ l = j + 1 ∧ C.room i j) ∨
      k = 0 ∧ ∀ t, C.excused (.tooDeep t)
  expected : ∀ c t u, C.text t u → C.Fails (.expected c t) (.expected c u)
  unterminated : ∀ c x t u, C.text t u →
    C.Fails (.unterminated c x (.start t)) (.unterminated c x (.start u))
  trailing : ∀ t u, C.text t u → C.Fails (.trailing t) (.trailing u)
  tooDeep : ∀ t u, C.text t u → C.Fails (.tooDeep t) (.tooDeep u)
  linked : ∀ p q n m, C.node n m → C.node (n.linked p q) (m.linked p q)
  branch : ∀ c ns ms rest rest', c.isComposite = true → c ≠ .string → C.nodes ns ms →
    C.text rest rest' → C.node (Node.branch c ns rest) (Node.branch c ms rest')
  /-- Corresponding parts of a command say the same about the next name. -/
  after : ∀ n m, C.node n m → ∀ context : NameContext, context.after n = context.after m
  reservedWord : ∀ n m, C.node n m →
    (n.category = .reservedWord ↔ m.category = .reservedWord) ∧
      (n.category = .reservedWord → Text.upper n.spelling = Text.upper m.spelling)
  keywordsOf : ∀ n m, C.node n m → keywordsOf n = keywordsOf m
  whitespace : C.Agrees C.node whitespace whitespace
  symbol : C.Agrees C.node symbol symbol
  operator : C.Agrees C.node operator operator
  commandWord : C.Agrees C.node commandWord commandWord
  whereKeyword : C.Agrees C.node whereKeyword whereKeyword
  conjunction : C.Agrees C.node conjunction conjunction
  delimiter : ∀ x ∈ punctuation, ∀ c, c.isComposite = false →
    C.Agrees C.node (delimiter x c) (delimiter x c)
  itemName : C.Agrees C.node itemName itemName
  blobBeyondName : C.Agrees C.node (blobBeyond Grammar.itemName) (blobBeyond Grammar.itemName)
  /-- A placeholder and a literal may correspond. -/
  plainValue : C.Agrees C.node (placeholder.orElse literal) (placeholder.orElse literal)

variable {C : Correspondence} {r s : Recognizer Node} {u v : Recognizer (List Node)}

theorem Advances.of_yields {l : Language Label} (h : u.Yields l) (hl : [] ∉ l)
    (hend : u [] = .absent) : Advances u :=
  ⟨hend, fun t ns rest hu => (h t ns rest hu).length_lt hl⟩

theorem spaced_nil (h : r [] = .absent) : Grammar.spaced r [] = .absent := by
  have hgap : Recognizer.optional (one Grammar.whitespace) [] = .found [] [] := rfl
  rw [Grammar.spaced, seq, hgap, Reading.bind_found, one, h]
  rfl

theorem Advances.spaced {l : Language Label} (h : r.Finds l) (hl : [] ∉ l)
    (hend : r [] = .absent) : Advances (Grammar.spaced r) :=
  .of_yields (spaced_yields h) (Phrase.nil_notMem_mul_right hl) (spaced_nil hend)

theorem Agrees.otherThan {stop : Recognizer Node} (hstop : C.Agrees C.node stop stop)
    (hr : C.Agrees C.node r s) :
    C.Agrees C.node (Grammar.otherThan stop r) (Grammar.otherThan stop s) := by
  intro t t' ht
  have hfirst := hstop t t' ht
  unfold Grammar.otherThan
  generalize stop t = x at hfirst ⊢
  generalize stop t' = y at hfirst ⊢
  cases hfirst with
  | found hvalue hrest => exact .absent
  | absent => exact hr t t' ht
  | broken h => exact .broken h
  | excused h => exact .excused h _

namespace Lawful

section Building

theorem chain (h : C.Lawful) {ns ms : List Node} (hns : C.nodes ns ms) :
    C.nodes (Node.chain ns) (Node.chain ms) := by
  have hchain : ∀ i, C.nodes (Node.chainFrom i ns) (Node.chainFrom i ms) := by
    induction hns with
    | nil => exact fun _ => .nil
    | @cons n m ns ms hn hns ih =>
        intro i
        have hempty : ns.isEmpty = ms.isEmpty := by
          cases hns <;> rfl
        rw [Node.chainFrom, Node.chainFrom, hempty]
        exact .cons (h.linked _ _ n m hn) (ih (i + 1))
  exact hchain 0

theorem node (h : C.Lawful) {c : Category} (hc : c.isComposite = true) (hstring : c ≠ .string)
    (hu : C.Agrees C.nodes u v) : C.Agrees C.node (Recognizer.node c u) (Recognizer.node c v) :=
  fun t t' ht => (hu t t' ht).bind fun _ _ _ _ _ _ hns hrest =>
    .found (h.branch c _ _ _ _ hc hstring (h.chain hns) hrest) hrest

theorem wrap (h : C.Lawful) {c : Category} (hc : c.isComposite = true) (hstring : c ≠ .string)
    (hr : C.Agrees C.node r s) : C.Agrees C.node (Recognizer.wrap c r) (Recognizer.wrap c s) :=
  h.node hc hstring hr.one

theorem spaced (h : C.Lawful) (hr : C.Agrees C.node r s) :
    C.Agrees C.nodes (Grammar.spaced r) (Grammar.spaced s) :=
  h.whitespace.one.optional.seq hr.one

theorem required (h : C.Lawful) (hr : C.Agrees C.node r s) (c : Category) :
    C.Agrees C.node (r.required c) (s.required c) :=
  hr.orFault fun t t' ht => h.expected c t t' ht

theorem many (h : C.Lawful) (hu : C.Agrees C.nodes u v) (hadvances : Advances u)
    (hadvances' : Advances v) : C.Agrees C.nodes u.many v.many :=
  Agrees.repeated (S := fun _ _ => True) h.nil_iff (fun _ _ _ => hu) (fun _ _ _ _ _ _ => trivial)
    (fun _ => hadvances) (fun _ => hadvances') trivial

/-- Where levels of nesting run out on one side only, the fault is excused. -/
theorem refused {opening : Recognizer Node} (hopening : C.Agrees C.node opening opening)
    (hexcused : ∀ t, C.excused (.tooDeep t))
    (hr : ∀ t, ∃ next, r t = (opening t).bind next) :
    C.Agrees C.node (Recognizer.refused opening) r := by
  intro t t' ht
  obtain ⟨next, hnext⟩ := hr t'
  rw [hnext]
  exact (hopening t t' ht).bind fun _ _ _ _ _ _ _ _ => .excused (hexcused t) _

theorem refused_both (h : C.Lawful) {opening : Recognizer Node}
    (hopening : C.Agrees C.node opening opening) :
    C.Agrees C.node (Recognizer.refused opening) (Recognizer.refused opening) :=
  fun t t' ht => (hopening t t' ht).bind fun _ _ _ _ _ _ _ _ => (h.tooDeep t t' ht).matches

end Building

section Words

theorem commandWord_found (h : C.Lawful) {t rest : Text} {n m : Node}
    (hn : Grammar.commandWord t = .found n rest) (hnode : C.node n m) :
    Text.upper n.spelling = Text.upper m.spelling :=
  (h.reservedWord n m hnode).2
    (Phrase.label_mem_part.mp (commandWord_finds t n rest hn).labels)

theorem arePaired_congr {first first' second second' : Text}
    (hfirst : Text.upper first = Text.upper first')
    (hsecond : Text.upper second = Text.upper second') :
    arePaired first second = arePaired first' second' := by
  rw [arePaired, arePaired, Keyword.ofText?_congr hfirst, Keyword.ofText?_congr hsecond]

theorem partnerFollows_congr (h : C.Lawful) {first first' t t' : Text}
    (hfirst : Text.upper first = Text.upper first') (ht : C.text t t') :
    partnerFollows first t = partnerFollows first' t' := by
  have hword := h.commandWord _ _ (h.dropLayout t t' ht)
  unfold partnerFollows
  generalize hx : Grammar.commandWord (t.dropWhile Text.isLayout) = x at hword ⊢
  generalize Grammar.commandWord (t'.dropWhile Text.isLayout) = y at hword ⊢
  cases hword with
  | found hnode hrest => exact arePaired_congr hfirst (h.commandWord_found hx hnode)
  | absent => rfl
  | broken hfault => exact absurd hx word_ne_broken
  | excused hfault => exact absurd hx word_ne_broken

theorem leadingWord (h : C.Lawful) :
    C.Agrees C.node Grammar.leadingWord Grammar.leadingWord := by
  apply h.commandWord.filter
  intro t n m rest rest' hn hnode hrest
  have hword := h.commandWord_found hn hnode
  rw [isClauseWord, isClauseWord, Keyword.ofText?_congr hword,
    h.partnerFollows_congr hword hrest]

theorem continuingWord (h : C.Lawful) {last last' : Text}
    (hlast : Text.upper last = Text.upper last') :
    C.Agrees C.node (Grammar.continuingWord last) (Grammar.continuingWord last') :=
  (h.commandWord.filter fun _ _ _ _ _ hn hnode _ =>
    arePaired_congr hlast (h.commandWord_found hn hnode)).orElse h.leadingWord

theorem continuingWord_advances (last : Text) :
    Advances (Grammar.spaced (Grammar.continuingWord last)) :=
  .spaced (continuingWord_finds last) (Phrase.nil_notMem_part _) rfl

theorem lastWord_congr (h : C.Lawful) {last last' : Text} {n m : Node}
    (hlast : Text.upper last = Text.upper last') (hnode : C.node n m) :
    Text.upper (lastWord last n) = Text.upper (lastWord last' m) := by
  obtain ⟨hcategory, hspelling⟩ := h.reservedWord n m hnode
  unfold lastWord
  by_cases hn : n.category = .reservedWord
  · rw [if_pos hn, if_pos (hcategory.mp hn), hspelling hn]
  · rw [if_neg hn, if_neg (mt hcategory.mpr hn), hlast]

theorem reservedWordSequence (h : C.Lawful) :
    C.Agrees C.node Grammar.reservedWordSequence Grammar.reservedWordSequence := by
  refine h.node rfl (by decide) (h.leadingWord.andThen fun t n m rest hn hnode => ?_)
  have hspelling : Text.upper n.spelling = Text.upper m.spelling :=
    (h.reservedWord n m hnode).2
      (Phrase.label_mem_part.mp (leadingWord_finds t n rest hn).labels)
  exact Agrees.repeated (S := fun last last' => Text.upper last = Text.upper last') h.nil_iff
    (fun last last' hlast => h.spaced (h.continuingWord hlast))
    (fun last last' n m hlast hnode => h.lastWord_congr hlast hnode)
    continuingWord_advances continuingWord_advances hspelling

end Words

section Selectors

theorem qualifiedName (h : C.Lawful) {role : Category} (hrole : IsRole role) :
    C.Agrees C.node (Grammar.qualifiedName role) (Grammar.qualifiedName role) := by
  have hcomposite : role.isComposite = true := by rcases hrole with rfl | rfl | rfl <;> rfl
  have hstring : role ≠ .string := by rcases hrole with rfl | rfl | rfl <;> decide
  have hdot : C.Agrees C.node accessor accessor := h.delimiter '.' (by decide) .accessor rfl
  exact h.node hcomposite hstring (h.itemName.one.seq
    (hdot.one.seq (h.required h.itemName _).one).optional)

theorem selector (h : C.Lawful) {role : Category} (hrole : IsRole role) :
    C.Agrees C.node (Grammar.selector role) (Grammar.selector role) := by
  have hblob : C.Agrees C.node
      (Recognizer.wrap .selectorItem (Recognizer.wrap .literal (blobBeyond Grammar.itemName)))
      (Recognizer.wrap .selectorItem (Recognizer.wrap .literal (blobBeyond Grammar.itemName))) :=
    h.wrap rfl (by decide) (h.wrap rfl (by decide) h.blobBeyondName)
  exact hblob.orElse ((h.qualifiedName hrole).orElse (h.wrap rfl (by decide) h.plainValue))

theorem selectorItem (h : C.Lawful) :
    C.Agrees C.node Grammar.selectorItem Grammar.selectorItem :=
  h.selector (Or.inr (Or.inr rfl))

end Selectors

section Collections

theorem elements (h : C.Lawful) {first next close : Recognizer Node} {element : Category}
    (hfirst : C.Agrees C.node first first) (hnext : C.Agrees C.node next next)
    (hclose : C.Agrees C.node close close) (hfinds : next.Finds (Phrase.part element))
    {unclosed : Text → Fault}
    (hunclosed : ∀ t u, C.text t u → C.Fails (unclosed t) (unclosed u)) :
    C.Agrees C.nodes (Grammar.elements first next close unclosed)
      (Grammar.elements first next close unclosed) := by
  have hcomma : C.Agrees C.node comma comma := h.delimiter ',' (by decide) .symbol rfl
  have hadvances : Advances ((Grammar.spaced comma).seq (Grammar.spaced next)) := by
    refine .of_yields ((spaced_yields comma_finds).seq (spaced_yields hfinds))
      (Phrase.nil_notMem_mul_right (Phrase.nil_notMem_mul_right (Phrase.nil_notMem_part _))) ?_
    rw [seq, spaced_nil rfl, Reading.bind_absent]
  have hmore := h.many ((h.spaced hcomma).seq (h.spaced hnext)) hadvances hadvances
  exact (((h.spaced hfirst).seq hmore).seq (h.spaced (hclose.orFault hunclosed))).orElse
    (h.spaced hclose)

theorem node_one_seq (c : Category) (opening : Recognizer Node) (u : Recognizer (List Node))
    (t : Text) :
    ∃ next, Recognizer.node c ((one opening).seq u) t = (opening t).bind next := by
  refine ⟨fun n rest => (u rest).bind fun ns after =>
    .found (Node.branch c (Node.chain (n :: ns)) after) after, ?_⟩
  unfold Recognizer.node seq one
  cases opening t with
  | found n rest =>
      simp only [Reading.map_found, Reading.bind_found]
      cases u rest <;> rfl
  | absent => rfl
  | broken f => rfl

theorem arrayLiteral (h : C.Lawful) {k l : Nat} (hroom : C.room k l) :
    C.Agrees C.node (Grammar.arrayLiteral k) (Grammar.arrayLiteral l) := by
  have hopen : C.Agrees C.node (Grammar.delimiter '[' .arrayStart)
      (Grammar.delimiter '[' .arrayStart) := h.delimiter '[' (by decide) .arrayStart rfl
  have hclose : C.Agrees C.node (Grammar.delimiter ']' .arrayEnd)
      (Grammar.delimiter ']' .arrayEnd) := h.delimiter ']' (by decide) .arrayEnd rfl
  rcases h.room k l hroom with ⟨rfl, rfl⟩ | ⟨i, j, rfl, rfl, _⟩ | ⟨rfl, hexcused⟩
  · exact h.refused_both hopen
  · exact h.node rfl (by decide) (hopen.one.seq (h.elements h.selectorItem
      (h.required h.selectorItem _) hclose (selectorItem_finds.orFault _)
      fun t u ht => h.unterminated _ _ t u ht))
  · apply refused hopen hexcused
    intro t
    cases l with
    | zero => exact ⟨_, rfl⟩
    | succ l => exact node_one_seq _ _ _ t

theorem mapEntry (h : C.Lawful) (demand : Demand) :
    C.Agrees C.node (Grammar.mapEntry demand) (Grammar.mapEntry demand) := by
  have hcolon : C.Agrees C.node mapSeparator mapSeparator :=
    h.delimiter ':' (by decide) .mapSeparator rfl
  exact h.node rfl (by decide) (((h.selectorItem.under demand (h.expected _)).one.seq
    ((h.spaced hcolon).under demand (h.expected _))).seq
    (h.spaced (h.required h.selectorItem _)))

theorem mapLiteral (h : C.Lawful) {k l : Nat} (hroom : C.room k l) :
    C.Agrees C.node (Grammar.mapLiteral k) (Grammar.mapLiteral l) := by
  have hopen : C.Agrees C.node (Grammar.delimiter '\x7b' .mapStart)
      (Grammar.delimiter '\x7b' .mapStart) := h.delimiter '\x7b' (by decide) .mapStart rfl
  have hclose : C.Agrees C.node (Grammar.delimiter '\x7d' .mapEnd)
      (Grammar.delimiter '\x7d' .mapEnd) := h.delimiter '\x7d' (by decide) .mapEnd rfl
  rcases h.room k l hroom with ⟨rfl, rfl⟩ | ⟨i, j, rfl, rfl, _⟩ | ⟨rfl, hexcused⟩
  · exact h.refused_both hopen
  · exact h.node rfl (by decide) (hopen.one.seq (h.elements (h.mapEntry .optional)
      (h.mapEntry .mandatory) hclose (mapEntry_finds .mandatory)
      fun t u ht => h.unterminated _ _ t u ht))
  · apply refused hopen hexcused
    intro t
    cases l with
    | zero => exact ⟨_, rfl⟩
    | succ l => exact node_one_seq _ _ _ t

end Collections

section Commands

theorem plainItem (h : C.Lawful) {k l : Nat} (hroom : C.room k l) {role : Category}
    (hrole : IsRole role) :
    C.Agrees C.node (Grammar.plainItem k role) (Grammar.plainItem l role) :=
  (((h.arrayLiteral hroom).orElse (h.mapLiteral hroom)).orElse (h.selector hrole)).orElse
    h.symbol

theorem commandItem (h : C.Lawful) {k l : Nat} (hroom : C.room k l) (context : NameContext) :
    C.Agrees C.node (Grammar.commandItem k context) (Grammar.commandItem l context) := by
  have hplain := h.plainItem hroom context.isRole_role
  unfold Grammar.commandItem
  split
  · exact h.reservedWordSequence.orElse hplain
  · exact h.leadingWord.otherThan hplain

theorem commandItem_advances (k : Nat) (context : NameContext) :
    Advances (Grammar.spaced (Grammar.commandItem k context)) :=
  .spaced (commandItem_finds k context) Phrase.nil_notMem_item (commandItem_nil k context)

theorem commandItems (h : C.Lawful) {k l : Nat} (hroom : C.room k l) (words : List Keyword) :
    C.Agrees C.nodes (Grammar.commandItems k words) (Grammar.commandItems l words) := by
  refine Agrees.repeated (S := Eq) h.nil_iff ?_ ?_ (commandItem_advances k)
    (commandItem_advances l) rfl
  · rintro context _ rfl
    exact h.spaced (h.commandItem hroom context)
  · rintro context _ n m rfl hnode
    exact h.after n m hnode context

theorem command (h : C.Lawful) {k l : Nat} (hroom : C.room k l) :
    C.Agrees C.node (Grammar.command k) (Grammar.command l) := by
  induction k generalizing l with
  | zero =>
      rcases h.room 0 l hroom with ⟨_, rfl⟩ | ⟨i, j, hi, _⟩ | ⟨_, hexcused⟩
      · exact h.refused_both h.reservedWordSequence
      · cases hi
      · apply refused h.reservedWordSequence hexcused
        intro t
        cases l with
        | zero => exact ⟨_, rfl⟩
        | succ l => exact ⟨_, Reading.bind_assoc _ _ _⟩
  | succ k ih =>
      rcases h.room (k + 1) l hroom with ⟨hk, _⟩ | ⟨i, j, hi, rfl, hij⟩ | ⟨hk, _⟩
      · cases hk
      · obtain rfl : k = i := Nat.succ.inj hi
        refine h.node rfl (by decide) (h.reservedWordSequence.andThen
          fun t n m rest hn hnode => ?_)
        rw [h.keywordsOf n m hnode]
        exact (h.commandItems hij _).seq (h.spaced (ih hij)).optional
      · cases hk

end Commands

section Conditions

theorem conditionItem (h : C.Lawful) (demand : Demand) :
    C.Agrees C.node (conditionItemUnder demand) (conditionItemUnder demand) :=
  h.node rfl (by decide) (((h.selectorItem.under demand (h.expected _)).one.seq
    (h.spaced (h.required (h.operator.orElse h.symbol) _))).seq
    (h.spaced (h.required h.selectorItem _)))

theorem conditionChain (h : C.Lawful) (demand : Demand) :
    C.Agrees C.node (Grammar.conditionChain demand) (Grammar.conditionChain demand) := by
  have hadvances : Advances (((Grammar.spaced Grammar.conjunction).seq
      (one (Grammar.whitespace.required .whitespace))).seq
      (one (Grammar.conditionItem.required .conditionItem))) := by
    refine .of_yields (((spaced_yields conjunction_finds).seq
      (whitespace_finds.orFault _).one).seq ((conditionItem_finds .optional).orFault _).one)
      (Phrase.nil_notMem_mul_right (Phrase.nil_notMem_part _)) ?_
    rw [seq, seq, spaced_nil rfl, Reading.bind_absent, Reading.bind_absent]
  exact h.node rfl (by decide) ((h.conditionItem demand).one.seq
    (h.many (((h.spaced h.conjunction).seq (h.required h.whitespace _).one).seq
      (h.required (h.conditionItem .optional) _).one) hadvances hadvances))

theorem condition (h : C.Lawful) : C.Agrees C.node Grammar.condition Grammar.condition :=
  h.node rfl (by decide) ((h.whereKeyword.one.seq (h.required h.whitespace _).one).seq
    (h.conditionChain .mandatory).one)

end Conditions

section Statements

theorem statementParts (h : C.Lawful) {k l : Nat} (hroom : C.room k l) :
    C.Agrees C.nodes (Grammar.statementParts k) (Grammar.statementParts l) := by
  have hend : C.Agrees C.node terminator terminator :=
    h.delimiter ';' (by decide) .terminator rfl
  exact (((h.whitespace.one.optional.seq (h.required (h.command hroom) _).one).seq
    ((h.spaced h.condition).seq (h.spaced (h.command hroom)).optional).optional).seq
    (h.spaced hend).optional).seq h.whitespace.one.optional

/-- Corresponding sources are read alike. -/
theorem statement (h : C.Lawful) {k l : Nat} (hroom : C.room k l) :
    C.Agrees C.node (Grammar.statement k) (Grammar.statement l) := by
  intro t t' ht
  apply (h.statementParts hroom t t' ht).bind
  intro ns ms rest rest' _ _ hns hrest
  have hempty : rest.isEmpty = rest'.isEmpty := by
    rw [Bool.eq_iff_iff, List.isEmpty_iff, List.isEmpty_iff]
    exact h.nil_iff rest rest' hrest
  rw [hempty]
  split
  · exact .found (h.branch _ _ _ _ _ rfl (by decide) hns hrest) hrest
  · exact (h.trailing rest rest' hrest).matches

end Statements

end Lawful

/-- A source that corresponds to one that is read is read into a corresponding tree. -/
theorem parse_eq_ok_of_text {C : Correspondence} (h : C.Lawful) {k l : Nat} (hroom : C.room k l)
    {t u : Text} (ht : C.text t u) {root : Node} (hparse : parse k t = .ok root) :
    ∃ root', parse l u = .ok root' ∧ C.node root root' := by
  have hmatches := h.statement hroom t u ht
  rw [parse_eq_ok.mp hparse] at hmatches
  generalize hy : Grammar.statement l u = y at hmatches
  cases hmatches with
  | found hnode hrest =>
      obtain rfl := (statement_eq_found.mp hy).1
      exact ⟨_, parse_eq_ok.mpr hy, hnode⟩

end Correspondence

end QueryTree
