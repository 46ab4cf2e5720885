import Mathlib.Data.List.TakeWhile
import QueryTree.Proofs.Checked.Agreement
import QueryTree.Proofs.Roles.Items
import QueryTree.Proofs.Template.Item

/-!
# Every production passes its checks

A leaf ends where a run of ASCII characters ends or behind a character that is known, so the
text can be cut there, whatever characters stand around it. Larger productions are put together
from parts that agree, and the flags of a command agree with the context of its next name.
-/

namespace QueryTree

open Recognizer Grammar Node

section Ascii

theorem isAscii_isAlphanum : Text.IsAscii Char.isAlphanum := by
  intro c h
  delta Char.isAlphanum Char.isAlpha Char.isUpper Char.isLower Char.isDigit at h
  simp only [Bool.or_eq_true, Bool.and_eq_true, decide_eq_true_eq] at h
  rcases h with (⟨_, h⟩ | ⟨_, h⟩) | ⟨_, h⟩
  · exact UInt32.le_trans h (by decide)
  · exact UInt32.le_trans h (by decide)
  · exact UInt32.le_trans h (by decide)

theorem isAscii_isDigit : Text.IsAscii Char.isDigit :=
  fun c h => isAscii_isAlphanum c (Bool.or_eq_true_iff.mpr (Or.inr h))

theorem isAscii_isHexDigit : Text.IsAscii Text.isHexDigit :=
  fun c h => isAscii_isAlphanum c (isAlphanum_of_isHexDigit h)

theorem isAscii_isBlobChar : Text.IsAscii isBlobChar := by
  intro c h
  rcases Bool.or_eq_true_iff.mp h with h | h
  · exact isAscii_isHexDigit c h
  · rw [eq_of_beq h]
    decide

theorem isAscii_isLayout : Text.IsAscii Text.isLayout := by
  intro c h
  simp only [Text.isLayout, Bool.or_eq_true, beq_iff_eq] at h
  rcases h with ((rfl | rfl) | rfl) | rfl <;> decide

end Ascii

namespace Checked

variable {size depth : Nat}

section Terminals

theorem run_agrees {p : Char → Bool} (hp : Text.IsAscii p) (c : Category) :
    Agrees size depth (run c p) (Grammar.run c p) := by
  refine Agrees.leaf fun t => ?_
  rw [runEnd, Text.scan_eq hp]
  cases hword : t.takeWhile p with
  | nil =>
      refine Or.inl ⟨rfl, ?_⟩
      rw [Grammar.run, hword]
  | cons x w =>
      have hpos : Text.byteSize (x :: w) ≠ 0 := (Text.byteSize_pos (List.cons_ne_nil x w)).ne'
      refine Or.inr ⟨x :: w, t.dropWhile p, ?_, if_neg hpos, ?_⟩
      · rw [← hword, List.takeWhile_append_dropWhile]
      · rw [Grammar.run, hword]

/-- A leaf over one character ends behind it, which is as many bytes on as it takes up. -/
theorem single_agrees {p : Char → Bool} {scan : Text → Option Nat}
    (habsent : ∀ t, (∀ x ∈ t.head?, p x = false) → scan t = none)
    (hfound : ∀ x t, p x = true → scan (x :: t) = some x.utf8Size) (c : Category) :
    Agrees size depth (leaf c scan) (single c p) := by
  refine Agrees.leaf fun t => ?_
  cases t with
  | nil => exact Or.inl ⟨habsent [] nofun, rfl⟩
  | cons x t =>
      cases hx : p x with
      | true => exact Or.inr ⟨[x], t, rfl, hfound x t hx, single_cons hx t⟩
      | false =>
          have hhead : ∀ y ∈ (x :: t).head?, p y = false := fun y hy => Option.some.inj hy ▸ hx
          exact Or.inl ⟨habsent _ hhead, single_eq_absent hhead⟩

theorem delimiter_agrees (x : Char) (c : Category) :
    Agrees size depth (delimiter x c) (Grammar.delimiter x c) := by
  refine single_agrees (fun t h => if_neg fun hx => ?_) (fun y t hy => ?_) c
  · exact absurd (h x hx) (by simp)
  · rw [eq_of_beq hy]
    exact if_pos rfl

theorem symbol_agrees : Agrees size depth symbol Grammar.symbol := by
  have hsize : (symbols.all fun x => x.utf8Size == 1) = true := by decide
  refine single_agrees (fun t h => ?_) (fun x t hx => ?_) .symbol
  · cases t with
    | nil => rfl
    | cons x t => exact if_neg (by simpa using h x rfl)
  · rw [eq_of_beq (List.all_eq_true.mp hsize x (List.contains_iff_mem.mp hx))]
    exact if_pos hx

/-- Of the comparisons that begin a text the longest is taken. -/
theorem operator_agrees : Agrees size depth operator Grammar.operator := by
  have hequals : ∀ t : Text, (∀ u, t = '=' :: u → False) → ['='].isPrefixOf t = false := by
    intro t h
    cases t with
    | nil => rfl
    | cons y t =>
        have hy : '=' ≠ y := fun hy => h t (hy ▸ rfl)
        rw [List.isPrefixOf, beq_false_of_ne hy, Bool.false_and]
  refine Agrees.leaf fun t => ?_
  unfold Grammar.operator
  split
  · next t => exact Or.inr ⟨['<', '='], t, rfl, rfl, rfl⟩
  · next t => exact Or.inr ⟨['>', '='], t, rfl, rfl, rfl⟩
  · next t => exact Or.inr ⟨['!', '='], t, rfl, rfl, rfl⟩
  · next t h =>
      refine Or.inr ⟨['<'], t, rfl, ?_, rfl⟩
      simp [operators, List.isPrefixOf, hequals t h]
  · next t h =>
      refine Or.inr ⟨['>'], t, rfl, ?_, rfl⟩
      simp [operators, List.isPrefixOf, hequals t h]
  · next hless hgreater hunequal hbelow habove =>
      have hnone : ∀ op ∈ operators, ¬op.isPrefixOf t = true := by
        intro op hop hprefix
        obtain ⟨u, rfl⟩ := List.isPrefixOf_iff_prefix.mp hprefix
        simp only [operators, List.mem_cons, List.not_mem_nil, or_false] at hop
        rcases hop with rfl | rfl | rfl | rfl | rfl
        · exact hless u rfl
        · exact hgreater u rfl
        · exact hunequal u rfl
        · exact hbelow u rfl
        · exact habove u rfl
      exact Or.inl ⟨by rw [List.find?_eq_none.mpr hnone, Option.map_none], rfl⟩

/-- A word is a run of letters and digits that is kept if it satisfies the test. -/
theorem word_eq_filter (c : Category) (accept : Text → Bool) :
    Grammar.word c accept = fun t => (Grammar.run c Char.isAlphanum t).bind fun n rest =>
      if accept n.spelling then .found n rest else .absent := by
  funext t
  rw [word_eq, Grammar.run]
  cases t.takeWhile Char.isAlphanum with
  | nil => rfl
  | cons x w => rfl

theorem word_agrees (c : Category) (accept : Text → Bool) :
    Agrees size depth (word c accept) (Grammar.word c accept) := by
  rw [word_eq_filter]
  exact (run_agrees isAscii_isAlphanum c).filter fun n _ => accept n.spelling

theorem whitespace_agrees : Agrees size depth whitespace Grammar.whitespace :=
  run_agrees isAscii_isLayout .whitespace

theorem number_agrees : Agrees size depth number Grammar.number :=
  run_agrees isAscii_isDigit .number

theorem oneOf_agrees (words : List Text) (c : Category) :
    Agrees size depth (oneOf words c) (Grammar.oneOf words c) :=
  word_agrees c _

theorem hexBlob_agrees : Agrees size depth hexBlob Grammar.hexBlob := by
  refine Agrees.leaf fun t => ?_
  rw [Text.scan_eq isAscii_isHexDigit, Text.scan_eq isAscii_isBlobChar]
  cases t with
  | nil => exact Or.inl ⟨rfl, rfl⟩
  | cons x t =>
      cases hx : Text.isHexDigit x with
      | false =>
          refine Or.inl ⟨?_, hexBlob_eq_absent fun y hy => Option.some.inj hy ▸ hx⟩
          rw [List.takeWhile_cons_of_neg (by simp [hx]), Text.byteSize_nil, if_pos rfl]
      | true =>
          have hblob : isBlobChar x = true := Bool.or_eq_true_iff.mpr (Or.inl hx)
          have hrun : (x :: t).takeWhile isBlobChar ≠ [] := by
            rw [List.takeWhile_cons_of_pos hblob]
            exact List.cons_ne_nil _ _
          have hdigits : Text.byteSize ((x :: t).takeWhile Text.isHexDigit) ≠ 0 := by
            rw [List.takeWhile_cons_of_pos hx]
            exact (Text.byteSize_pos (List.cons_ne_nil _ _)).ne'
          refine Or.inr ⟨(x :: t).takeWhile isBlobChar, (x :: t).dropWhile isBlobChar,
            List.takeWhile_append_dropWhile.symm, if_neg hdigits, ?_⟩
          rw [Grammar.hexBlob, List.head?_cons, Option.any_some, hx, if_pos rfl, Grammar.run]
          split
          · exact absurd ‹_› hrun
          · rfl

/-- The search for the closing quote goes from byte to byte and ends where the body does. -/
theorem inputCharacters_agrees : Agrees size depth inputCharacters Grammar.inputCharacters := by
  intro t _
  have hend : Text.bodyEnd? (Text.bytes t) (Text.byteSize t + 1) 0 =
      some (Text.byteSize (splitQuoted t).1) := by
    have hsteps : (Text.bytes t).length < Text.byteSize t + 1 + 0 := by
      rw [Text.length_bytes]
      exact Nat.lt_succ_self _
    rw [Text.bodyEnd?_eq (Nat.zero_le _) hsteps, Nat.zero_add, List.drop_zero, Text.bodySize_bytes]
  have hsplit := splitQuoted_append t
  rw [inputCharacters, hend, Option.bind_some, Grammar.inputCharacters]
  generalize splitQuoted t = parts at hsplit
  obtain ⟨body, rest⟩ := parts
  subst hsplit
  cases body with
  | nil => exact .leaf_absent (if_pos rfl) .inputCharacters
  | cons x body =>
      exact .leaf (if_neg (Text.byteSize_pos (List.cons_ne_nil x body)).ne') .inputCharacters

theorem quote_agrees : Agrees size depth quote Grammar.quote :=
  delimiter_agrees '\'' .quote

theorem string_agrees (demand : Demand) :
    Agrees size depth (string demand) (Grammar.stringUnder demand) :=
  (((quote_agrees.under demand .string).one.seq inputCharacters_agrees.one.optional).seq
    (quote_agrees.orFault _).one).node .string

theorem spaced_agrees {k : Checked Node} {r : Recognizer Node} (h : Agrees size depth k r) :
    AgreesAll size depth (spaced k) (Grammar.spaced r) :=
  whitespace_agrees.one.optional.seq h.one

end Terminals

section Selectors

theorem missing_answers {Q : Node → Text → Prop} (demand : Demand) (c : Category) (t : Text) :
    Answers Q depth (some (Recognizer.missing demand c t, depth))
      (Recognizer.missing demand c t) := by
  cases demand with
  | optional => exact .absent
  | mandatory => exact .broken (.expected c t)

/-- A name without quotes is cut where the letters and digits end that it is read from. -/
theorem itemNameCaseInsensitive_agrees (demand : Demand) :
    Agrees size depth (itemNameCaseInsensitive demand)
      (Grammar.itemNameCaseInsensitiveUnder demand) := by
  intro t ht
  have hrun := (run_agrees isAscii_isAlphanum .chars t ht).eq
  have hcover := List.takeWhile_append_dropWhile (p := Char.isAlphanum) (l := t)
  simp only [itemNameCaseInsensitive, hrun, Option.bind_some,
    Grammar.itemNameCaseInsensitiveUnder, wordUnder, Grammar.run]
  generalize t.dropWhile Char.isAlphanum = rest at hcover ⊢
  cases hword : t.takeWhile Char.isAlphanum with
  | nil => exact missing_answers demand .itemNameCaseInsensitive t
  | cons x w =>
      rw [hword] at hcover
      subst hcover
      have hspelling : (Node.leaf .chars (x :: w) rest).spelling = x :: w := rfl
      simp only [hspelling, List.isEmpty_cons, Bool.not_false, Bool.true_and]
      split
      · exact .leaf rfl .itemNameCaseInsensitive
      · exact missing_answers demand .itemNameCaseInsensitive _

/-- A run of characters of a class is all of a text if the class has all characters there. -/
theorem run_whole_iff (c : Category) {p : Char → Bool} {body : Text} :
    (∃ n, Grammar.run c p body = .found n []) ↔ (!body.isEmpty && body.all p) = true := by
  have hall : ([] = body.dropWhile p) ↔ body.all p = true := by
    rw [eq_comm, List.dropWhile_eq_nil_iff, List.all_eq_true]
  rw [Bool.and_eq_true, Bool.not_eq_true', ← hall]
  constructor
  · rintro ⟨n, hn⟩
    obtain ⟨hne, _, hdrop⟩ := run_eq_found.mp hn
    refine ⟨?_, hdrop⟩
    rw [List.isEmpty_eq_false_iff]
    rintro rfl
    exact hne rfl
  · rintro ⟨hne, hdrop⟩
    have hwhole : body.takeWhile p = body := by
      have hcover := List.takeWhile_append_dropWhile (p := p) (l := body)
      rwa [← hdrop, List.append_nil] at hcover
    refine ⟨_, run_eq_found.mpr ⟨?_, rfl, hdrop⟩⟩
    rwa [hwhole, ← List.isEmpty_eq_false_iff]

/-- A name that is closed ends two bytes after the text between the quotes, for a quote takes up
one byte. -/
theorem itemNameCaseSensitive_closed (demand : Demand) {body : Text} (hbody : '"' ∉ body)
    (rest : Text) :
    Answers (fun n => Spans ('"' :: (body ++ '"' :: rest)) [n]) depth
      (itemNameCaseSensitive demand ('"' :: (body ++ '"' :: rest)) depth)
      (Grammar.itemNameCaseSensitiveUnder demand ('"' :: (body ++ '"' :: rest))) := by
  have hinside : ∀ x ∈ body, (x != '"') = true := fun x hx =>
    bne_iff_ne.mpr fun hquote => hbody (hquote ▸ hx)
  have htake : (body ++ '"' :: rest).takeWhile (· != '"') = body := by
    rw [List.takeWhile_append_of_pos hinside, List.takeWhile_cons_of_neg (by simp), List.append_nil]
  have hdrop : (body ++ '"' :: rest).dropWhile (· != '"') = '"' :: rest := by
    rw [List.dropWhile_append_of_pos hinside, List.dropWhile_cons_of_neg (by simp)]
  have hfind : Text.find? '"' (body ++ '"' :: rest) = some (Text.byteSize body) := by
    rw [Text.find?_eq (by decide), if_pos (by simp), htake]
  have hagrees : Agrees (depth + Text.byteSize body) depth (run .chars Char.isAlphanum)
      (Grammar.run .chars Char.isAlphanum) := run_agrees isAscii_isAlphanum .chars
  have hrun := (hagrees body (Nat.le_refl _)).eq
  simp only [itemNameCaseSensitive, Grammar.itemNameCaseSensitiveUnder, hfind, hdrop, htake,
    Text.cut?_append, hrun, Option.bind_some]
  by_cases hwhole : (!body.isEmpty && body.all Char.isAlphanum) = true
  · obtain ⟨n, hn⟩ := (run_whole_iff .chars).mpr hwhole
    have hsize : Text.byteSize body + 2 = Text.byteSize ('"' :: (body ++ ['"'])) := by
      have hone : '"'.utf8Size = 1 := by decide
      rw [Text.byteSize_cons, Text.byteSize_append, Text.byteSize_cons, Text.byteSize_nil, hone]
      omega
    have hspelled : '"' :: (body ++ '"' :: rest) = '"' :: (body ++ ['"']) ++ rest := by
      rw [List.cons_append, List.append_assoc, List.singleton_append]
    simp only [hn, if_pos hwhole, hspelled]
    refine Answers.leaf ?_ .itemNameCaseSensitive
    exact congrArg some hsize
  · rw [if_neg hwhole]
    split
    · next hn => exact absurd ((run_whole_iff .chars).mp ⟨_, congrArg Prod.fst hn⟩) hwhole
    · next hn =>
        obtain ⟨_, rfl⟩ := Prod.mk.inj hn
        exact missing_answers demand .itemNameCaseSensitive _

theorem itemNameCaseSensitive_unopened (demand : Demand) {t : Text} (ht : t.head? ≠ some '"') :
    Answers (fun n => Spans t [n]) depth (itemNameCaseSensitive demand t depth)
      (Grammar.itemNameCaseSensitiveUnder demand t) := by
  have hchecked : itemNameCaseSensitive demand t depth =
      some (missing demand .itemNameCaseSensitive t, depth) := by
    unfold itemNameCaseSensitive
    split
    · exact absurd rfl ht
    · rfl
  have hread : Grammar.itemNameCaseSensitiveUnder demand t =
      missing demand .itemNameCaseSensitive t := by
    unfold Grammar.itemNameCaseSensitiveUnder
    split
    · exact absurd rfl ht
    · rfl
  rw [hchecked, hread]
  exact missing_answers demand .itemNameCaseSensitive t

theorem itemNameCaseSensitive_agrees (demand : Demand) :
    Agrees size depth (itemNameCaseSensitive demand)
      (Grammar.itemNameCaseSensitiveUnder demand) := by
  intro t _
  by_cases hquote : t.head? = some '"'
  · obtain ⟨u, rfl⟩ := List.head?_eq_some_iff.mp hquote
    by_cases hclosed : '"' ∈ u
    · obtain ⟨body, rest, rfl, hbody⟩ := List.eq_append_cons_of_mem hclosed
      exact itemNameCaseSensitive_closed demand hbody rest
    · have hfind : Text.find? '"' u = none := by rw [Text.find?_eq (by decide), if_neg hclosed]
      have hdrop : u.dropWhile (· != '"') = [] := by
        rw [List.dropWhile_eq_nil_iff]
        exact fun x hx => bne_iff_ne.mpr fun hquote => hclosed (hquote ▸ hx)
      simp only [itemNameCaseSensitive, Grammar.itemNameCaseSensitiveUnder, hfind, hdrop]
      exact .broken _
  · exact itemNameCaseSensitive_unopened demand hquote

theorem itemName_agrees (demand : Demand) :
    Agrees size depth (itemName demand) (Grammar.itemNameUnder demand) :=
  (((itemNameCaseSensitive_agrees .optional).orElse
    (itemNameCaseInsensitive_agrees .optional)).under demand .itemName).wrap .itemName

theorem blobBeyond_agrees {k : Checked Node} {r : Recognizer Node} (h : Agrees size depth k r) :
    Agrees size depth (blobBeyond k) (Grammar.blobBeyond r) :=
  fun t ht => (h t ht).bind fun _ _ _ _ => (hexBlob_agrees t ht).filter _

theorem literal_agrees (demand : Demand) :
    Agrees size depth (literal demand) (Grammar.literalUnder demand) :=
  (((((blobBeyond_agrees number_agrees).orElse number_agrees).orElse
    (string_agrees .optional)).orElse hexBlob_agrees).under demand .literal).wrap .literal

theorem qualifiedName_agrees (role : Category) :
    Agrees size depth (qualifiedName role) (Grammar.qualifiedName role) :=
  ((itemName_agrees .optional).one.seq ((delimiter_agrees '.' .accessor).one.seq
    ((itemName_agrees .optional).required .itemName).one).optional).node role

theorem selector_agrees (demand : Demand) (role : Category) :
    Agrees size depth (selector demand role) (Grammar.selectorUnder demand role) :=
  (((blobBeyond_agrees (itemName_agrees .optional)).wrap .literal).wrap .selectorItem).orElse
    ((qualifiedName_agrees role).orElse
      ((((delimiter_agrees '?' .placeholderInject).orElse (literal_agrees .optional)).under
        demand .selectorItem).wrap .selectorItem))

theorem selectorItem_agrees (demand : Demand) :
    Agrees size depth (selectorItem demand) (Grammar.selectorItemUnder demand) :=
  selector_agrees demand .selectorItem

end Selectors

section Collections

theorem elements_agrees {first next close : Checked Node} {first' next' close' : Recognizer Node}
    (hfirst : Agrees size depth first first') (hnext : Agrees size depth next next')
    (hclose : Agrees size depth close close') (unclosed : Text → Fault) :
    AgreesAll size depth (elements first next close unclosed)
      (Grammar.elements first' next' close' unclosed) :=
  (((spaced_agrees hfirst).seq (((spaced_agrees (delimiter_agrees ',' .symbol)).seq
    (spaced_agrees hnext)).many)).seq (spaced_agrees (hclose.orFault unclosed))).orElse
    (spaced_agrees hclose)

variable {limit room : Nat}

theorem collection_agrees (hword : size < wordLimit) (hroom : depth + room = limit)
    {first next : Checked Node} {first' next' : Recognizer Node}
    (hfirst : Agrees size (depth + 1) first first') (hnext : Agrees size (depth + 1) next next')
    (demand : Demand) (c : Category) (x closing : Char) (start finish : Category) :
    Agrees size depth
      (collection limit demand c (delimiter x start) first next closing finish)
      (Grammar.collectionUnder demand c (Grammar.delimiter x start) first' next' closing finish
        room) := by
  have hbegins : (Grammar.delimiter x start).FindsOnly fun n => n.spelling ≠ [] := by
    intro t n rest h
    obtain ⟨y, _, _, rfl⟩ := single_eq_found.mp h
    exact List.cons_ne_nil y []
  refine fun t ht => Agrees.level ht hword hroom ((delimiter_agrees x start).under demand c)
    (hbegins.under demand c) ?_ ?_
  · rintro rfl
    rfl
  · rintro m rfl
    have helements := elements_agrees hfirst hnext (delimiter_agrees closing finish)
      fun rest => .unterminated c closing (.start rest)
    refine ⟨_, fun _ u hu => (helements u hu).orFaultUnder demand fun _ => .expected c t, ?_⟩
    rw [← Counted.one_seq]
    rfl

theorem arrayLiteral_agrees (hword : size < wordLimit) (hroom : depth + room = limit)
    (demand : Demand) :
    Agrees size depth (arrayLiteral limit demand) (Grammar.arrayLiteralUnder demand room) :=
  collection_agrees hword hroom (selectorItem_agrees .optional)
    ((selectorItem_agrees .optional).required .selectorItem) demand .arrayLiteral '[' ']'
    .arrayStart .arrayEnd

theorem mapEntry_agrees (demand : Demand) :
    Agrees size depth (mapEntry demand) (Grammar.mapEntry demand) :=
  ((((selectorItem_agrees .optional).under demand .selectorItem).one.seq
    ((spaced_agrees (delimiter_agrees ':' .mapSeparator)).under demand .mapSeparator)).seq
    (spaced_agrees ((selectorItem_agrees .optional).required .selectorItem))).node .mapEntry

theorem mapLiteral_agrees (hword : size < wordLimit) (hroom : depth + room = limit)
    (demand : Demand) :
    Agrees size depth (mapLiteral limit demand) (Grammar.mapLiteralUnder demand room) :=
  collection_agrees hword hroom (mapEntry_agrees .optional) (mapEntry_agrees .mandatory)
    demand .mapLiteral '\x7b' '\x7d' .mapStart .mapEnd

end Collections

section Commands

theorem commandWord_agrees : Agrees size depth commandWord Grammar.commandWord := by
  rw [commandWord_eq_word]
  exact word_agrees .reservedWord _

/-- The word that is read ahead decides as the partner of the first word does. -/
theorem leadingWord_agrees : Agrees size depth leadingWord Grammar.leadingWord := by
  refine fun t ht => (commandWord_agrees t ht).bind fun n rest _ hn => ?_
  have hahead := (spaced_agrees commandWord_agrees rest (hn.fits ht)).eq
  rw [spaced_eq] at hahead
  cases hclause : isClauseWord n.spelling with
  | true => exact .found hn
  | false =>
      simp only [hahead, Option.bind_some, Bool.false_or, Bool.false_eq_true, if_false,
        partnerFollows]
      cases Grammar.commandWord (rest.dropWhile Text.isLayout) with
      | absent => exact .absent
      | broken fault => exact .absent
      | found m last =>
          simp only [Reading.map_found, List.getLast?_append, List.getLast?_singleton,
            Option.some_or, Option.any_some]
          split
          · exact .found hn
          · exact .absent

theorem continuingWord_agrees (last : Text) :
    Agrees size depth (continuingWord last) (Grammar.continuingWord last) :=
  (commandWord_agrees.filter fun n _ => arePaired last n.spelling).orElse leadingWord_agrees

theorem reservedWordSequence_agrees (demand : Demand) :
    Agrees size depth (reservedWordSequence demand)
      (Grammar.reservedWordSequenceUnder demand) := by
  refine ((leadingWord_agrees.under demand _).andThen fun first t ht => ?_).node
    .reservedWordSequence
  refine AgreesAll.repeated (fun a b _ => a = b) (fun a b t ht hab => ?_) ht rfl
  subst hab
  refine (spaced_agrees (continuingWord_agrees a) t ht).mono fun ns rest _ hns => ?_
  exact ⟨hns, _, List.foldlM_pure, rfl⟩

theorem otherThan_agrees {stop k : Checked Node} {stop' r : Recognizer Node}
    (hstop : Agrees size depth stop stop') (h : Agrees size depth k r) :
    Agrees size depth (otherThan stop k) (Grammar.otherThan stop' r) := by
  intro t ht
  have hahead := hstop t ht
  unfold otherThan Grammar.otherThan
  generalize stop t depth = outcome, stop' t = x at hahead
  cases hahead with
  | found _ => exact .absent
  | absent => exact h t ht
  | broken fault => exact .broken fault

variable {limit room : Nat}

theorem plainItem_agrees (hword : size < wordLimit) (hroom : depth + room = limit)
    (role : Category) :
    Agrees size depth (plainItem limit role) (Grammar.plainItem room role) :=
  (((arrayLiteral_agrees hword hroom .optional).orElse
    (mapLiteral_agrees hword hroom .optional)).orElse
    (selector_agrees .optional role)).orElse symbol_agrees

theorem commandItem_agrees (hword : size < wordLimit) (hroom : depth + room = limit)
    {flags : NameFlags} {context : NameContext} (h : flags.Agrees context) :
    Agrees size depth (commandItem limit flags) (Grammar.commandItem room context) := by
  have hplain := plainItem_agrees hword hroom context.role
  unfold commandItem Grammar.commandItem
  rw [h.inList, h.role]
  split
  · exact (reservedWordSequence_agrees .optional).orElse hplain
  · exact otherThan_agrees leadingWord_agrees hplain

/-- Nothing but a symbol is spelled as a comma. -/
theorem category_of_comma {context : NameContext} {t rest : Text} {n : Node}
    (h : Grammar.commandItem room context t = .found n rest) (ht : t = n.spelling ++ rest)
    (hcomma : n.spelling = [',']) : n.category = .symbol := by
  rw [ht, hcomma] at h
  have hsymbol := commandItem_listMark (x := ',') rfl room context rest
  obtain ⟨rfl, _⟩ := Reading.found.inj (h.symm.trans hsymbol)
  rfl

theorem foldlM_after?_gapNodes (flags : NameFlags) (t : Text) :
    (gapNodes t).foldlM NameFlags.after? flags = some flags := by
  unfold gapNodes
  split <;> rfl

/-- Whether what is remembered of a command agrees with the context of its next name, and no
more parentheses are counted than bytes have been read. -/
structure Remembers (size : Nat) (flags : NameFlags) (context : NameContext) (t : Text) : Prop where
  agrees : flags.Agrees context
  counted : flags.listDepth + Text.byteSize t ≤ size

/-- An item is taken note of without an error, for it counts at most one parenthesis and takes up
at least one byte. -/
theorem Remembers.after {flags : NameFlags} {context : NameContext} {t u rest : Text} {n : Node}
    (h : Remembers size flags context t) (hword : size < wordLimit)
    (hn : Grammar.commandItem room context u = .found n rest) (hspans : Spans u [n] rest)
    (hu : Text.byteSize u ≤ Text.byteSize t) :
    ∃ flags', flags.after? n = some flags' ∧ Remembers size flags' (context.after n) rest := by
  have hitem : ReadAs context.role n := readAs_of_commandItem hn
  have hsize := hspans.byteSize_singleton
  have hcounted := h.counted
  have hcover : u = n.spelling ++ rest := by rw [← hspans.tiles.1, hspans.tiles.2]
  obtain ⟨flags', hnote, hagrees, hdeeper⟩ := h.agrees.note hitem.category_ne.1 hitem.table
    (fun hsymbol hcomma => hsymbol (category_of_comma hn hcover hcomma)) (by omega)
  have hafter : flags.after? n = some flags' := (if_neg hitem.category_ne.1).trans hnote
  exact ⟨flags', hafter, hagrees, by omega⟩

theorem commandItems_agrees (hword : size < wordLimit) (hroom : depth + room = limit)
    (words : List Keyword) :
    AgreesAll size depth (commandItems limit words) (Grammar.commandItems room words) := by
  intro t ht
  refine AgreesAll.repeated (Remembers size) (fun flags context t ht h => ?_) ht ?_
  · have hread := commandItem_agrees hword hroom h.agrees
    refine (spaced_agrees hread t ht).mono fun ns rest hfound hns => ⟨hns, ?_⟩
    rw [spaced_eq] at hfound
    obtain ⟨n, hn, rfl⟩ := Reading.map_eq_found.mp hfound
    have hbehind := Text.byteSize_dropWhile_le Text.isLayout t
    have hspans := (hread _ (Nat.le_trans (Nat.add_le_add_left hbehind depth) ht)).found_holds hn
    obtain ⟨flags', hafter, hnext⟩ := h.after hword hn hspans hbehind
    refine ⟨flags', ?_, ?_⟩
    · rw [List.foldlM_append, foldlM_after?_gapNodes]
      exact congrArg (Option.bind · some) hafter
    · rw [List.foldl_append, foldl_after_gapNodes]
      exact hnext
  · refine ⟨NameFlags.agrees_ofKeywords words, ?_⟩
    exact Nat.le_trans (Nat.add_le_add_right (Nat.zero_le depth) _) ht

/-- The bound on the commands in a command makes no difference if it is not below the number
of levels left. -/
theorem command_agrees (hword : size < wordLimit) (hroom : depth + room = limit) {bound : Nat}
    (hbound : room ≤ bound) (demand : Demand) :
    Agrees size depth (command limit demand bound) (Grammar.commandUnder demand room) := by
  have hbegins : (Grammar.reservedWordSequence).FindsOnly fun n => n.spelling ≠ [] :=
    fun t n rest h =>
      ((reservedWordSequence_finds t n rest h).formed n List.mem_cons_self).self.nonempty
  induction bound generalizing depth room demand with
  | zero =>
      obtain rfl := Nat.le_zero.mp hbound
      exact fun t ht => Agrees.level ht hword hroom
        ((reservedWordSequence_agrees .optional).under demand .command)
        (hbegins.under demand .command) (fun _ => rfl) nofun
  | succ bound ih =>
      refine fun t ht => Agrees.level ht hword hroom
        ((reservedWordSequence_agrees .optional).under demand .command)
        (hbegins.under demand .command) ?_ ?_
      · rintro rfl
        rfl
      · rintro m rfl
        have hinner : depth + 1 + m = limit := by omega
        have hnested := ih hinner (Nat.le_of_succ_le_succ hbound) .optional
        exact ⟨_, fun words => (commandItems_agrees hword hinner _).seq
          (spaced_agrees hnested).optional, rfl⟩

end Commands

section Statements

theorem conditionItem_agrees (demand : Demand) :
    Agrees size depth (conditionItem demand) (Grammar.conditionItemUnder demand) :=
  ((((selectorItem_agrees .optional).under demand .conditionItem).one.seq
    (spaced_agrees ((operator_agrees.orElse symbol_agrees).required .symbol))).seq
    (spaced_agrees ((selectorItem_agrees .optional).required .selectorItem))).node
    .conditionItem

theorem conditionChain_agrees (demand : Demand) :
    Agrees size depth (conditionChain demand) (Grammar.conditionChain demand) :=
  ((conditionItem_agrees demand).one.seq
    (((spaced_agrees (oneOf_agrees _ _)).seq (whitespace_agrees.required .whitespace).one).seq
      ((conditionItem_agrees .optional).required .conditionItem).one).many).node .conditionChain

theorem condition_agrees (demand : Demand) :
    Agrees size depth (condition demand) (Grammar.conditionUnder demand) :=
  ((((oneOf_agrees _ _).under demand .condition).one.seq
    (whitespace_agrees.required .whitespace).one).seq
    (conditionChain_agrees .mandatory).one).node .condition

theorem statementParts_agrees (hword : size < wordLimit) (limit : Nat) :
    AgreesAll size 0 (statementParts limit) (Grammar.statementParts limit) := by
  have hcommand : Agrees size 0 (command limit .optional limit) (Grammar.command limit) :=
    command_agrees hword (Nat.zero_add limit) (Nat.le_refl limit) .optional
  exact (((whitespace_agrees.one.optional.seq (hcommand.required .command).one).seq
    ((spaced_agrees (condition_agrees .optional)).seq
      (spaced_agrees hcommand).optional).optional).seq
    (spaced_agrees (delimiter_agrees ';' .terminator)).optional).seq
    whitespace_agrees.one.optional

theorem statement_agrees (hword : size < wordLimit) (limit : Nat) :
    Agrees size 0 (statement limit) (Grammar.statement limit) := by
  refine fun t ht => (statementParts_agrees hword limit t ht).bind fun ns rest _ hns => ?_
  rw [restAfter_eq hns.tiles]
  split
  · rw [composite?_eq hns.tiles, Option.map_some]
    exact .found (hns.unlinked .statement)
  · exact .broken (.trailing rest)

theorem offered_agrees (hword : size < wordLimit) (limit : Nat) (p : Production) :
    Agrees size 0 (offered limit p) (p.offered limit) := by
  have hroom : 0 + limit = limit := Nat.zero_add limit
  cases p with
  | whitespace => exact whitespace_agrees
  | chars => exact run_agrees isAscii_isAlphanum .chars
  | number => exact number_agrees
  | hexBlob => exact hexBlob_agrees
  | symbol => exact symbol_agrees
  | accessor => exact delimiter_agrees '.' .accessor
  | placeholder => exact delimiter_agrees '?' .placeholderInject
  | mapSeparator => exact delimiter_agrees ':' .mapSeparator
  | terminator => exact delimiter_agrees ';' .terminator
  | operator => exact operator_agrees
  | reservedWord => exact word_agrees .reservedWord isReservedWord
  | whereKeyword => exact oneOf_agrees _ .whereKeyword
  | inputCharacters => exact inputCharacters_agrees
  | string => exact string_agrees .optional
  | delimiter x c => exact delimiter_agrees x c
  | keyword words c => exact oneOf_agrees words c
  | reservedWordSequence => exact reservedWordSequence_agrees .optional
  | itemNameCaseInsensitive => exact itemNameCaseInsensitive_agrees .optional
  | itemNameCaseSensitive => exact itemNameCaseSensitive_agrees .optional
  | itemName => exact itemName_agrees .optional
  | literal => exact literal_agrees .optional
  | selectorItem => exact selectorItem_agrees .optional
  | arrayLiteral => exact arrayLiteral_agrees hword hroom .optional
  | mapLiteral => exact mapLiteral_agrees hword hroom .optional
  | command => exact command_agrees hword hroom (Nat.le_refl limit) .optional
  | condition => exact condition_agrees .optional
  | conditionChain => exact conditionChain_agrees .optional
  | conditionItem => exact conditionItem_agrees .optional
  | statement => exact statement_agrees hword limit

/-- No check fails in any production, under either demand. -/
theorem ofProduction_agrees (hword : size < wordLimit) (limit : Nat) (demand : Demand)
    (p : Production) :
    Agrees size 0 (ofProduction limit demand p) (p.recognizer limit demand) := by
  have hroom : 0 + limit = limit := Nat.zero_add limit
  cases p with
  | string => exact string_agrees demand
  | reservedWordSequence => exact reservedWordSequence_agrees demand
  | itemNameCaseInsensitive => exact itemNameCaseInsensitive_agrees demand
  | itemNameCaseSensitive => exact itemNameCaseSensitive_agrees demand
  | itemName => exact itemName_agrees demand
  | literal => exact literal_agrees demand
  | selectorItem => exact selectorItem_agrees demand
  | arrayLiteral => exact arrayLiteral_agrees hword hroom demand
  | mapLiteral => exact mapLiteral_agrees hword hroom demand
  | command => exact command_agrees hword hroom (Nat.le_refl limit) demand
  | condition => exact condition_agrees demand
  | conditionChain => exact conditionChain_agrees demand
  | conditionItem => exact conditionItem_agrees demand
  | statement => exact statement_agrees hword limit
  | _ => exact (offered_agrees hword limit _).under demand _

end Statements

end Checked

end QueryTree
