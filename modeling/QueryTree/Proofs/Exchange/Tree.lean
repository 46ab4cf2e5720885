import QueryTree.Proofs.Correspondence.Grammar
import QueryTree.Proofs.Exchange.Text
import QueryTree.Proofs.Marks.Scan

/-!
# Exchanging pieces of a source

Two sources that are the same up to an exchange of pieces are read into trees that
are the same up to this exchange: nodes of the same categories with the same leaves,
but for whitespace, strings and bind markers. If a marker is exchanged for a string, its
leaf is exchanged for a literal.
-/

namespace QueryTree

open Recognizer Grammar

namespace Exchange

/-- Whether two nodes are the same up to an exchange. -/
inductive Exchanged (E : Exchange) : Node → Node → Prop where
  | leaf {c : Category} {w t u : Text} {p q : Option Nat} (hc : c.isComposite = false)
      (hw : Text.Inert w) :
      Exchanged E ((Node.leaf c w t).linked p q) ((Node.leaf c w u).linked p q)
  | layout {w v t u : Text} {p q : Option Nat} (h : E.layout w v) :
      Exchanged E ((Node.leaf .whitespace w t).linked p q)
        ((Node.leaf .whitespace v u).linked p q)
  | string {s s' t u : Text} {p q : Option Nat} (h : E.string s s') :
      Exchanged E ((quotation s t).linked p q) ((quotation s' u).linked p q)
  | mark {t u : Text} {p q : Option Nat} (h : E.mark none) :
      Exchanged E ((Node.leaf .placeholderInject ['?'] t).linked p q)
        ((Node.leaf .placeholderInject ['?'] u).linked p q)
  | filled {s t u : Text} {p q : Option Nat} (h : E.mark (some s)) :
      Exchanged E ((Node.leaf .placeholderInject ['?'] t).linked p q)
        ((Node.branch .literal (Node.chain [quotation s u]) u).linked p q)
  | branch {c : Category} {ns ms : List Node} {t u : Text} {p q : Option Nat}
      (hc : c.isComposite = true) (hstring : c ≠ .string) (hlength : ns.length = ms.length)
      (h : ∀ x ∈ ns.zip ms, Exchanged E x.1 x.2) :
      Exchanged E ((Node.branch c ns t).linked p q) ((Node.branch c ms u).linked p q)

/-- The correspondence of an exchange. It says nothing about texts that the first
reading rejects. -/
def correspondence (E : Exchange) : Correspondence where
  text := E.Texts
  node := E.Exchanged
  room := Eq
  fault := fun _ _ => False
  excused := fun _ => True

/-- Whether two nodes are the same up to an exchange and are spelled the same. -/
def Same (E : Exchange) (n m : Node) : Prop :=
  E.Exchanged n m ∧ n.spelling = m.spelling

variable {E : Exchange} {t u w : Text} {p : Char → Bool} {c : Category}

theorem Exchanged.of_nodes {ns ms : List Node} (hc : c.isComposite = true)
    (hstring : c ≠ .string) (h : E.correspondence.nodes ns ms) :
    E.Exchanged (Node.branch c ns t) (Node.branch c ms u) := by
  obtain ⟨hlength, hzip⟩ := List.forall₂_iff_zip.mp h
  exact Exchanged.branch (p := none) (q := none) hc hstring hlength fun x hx => hzip hx

theorem Exchanged.linked {n m : Node} (h : E.Exchanged n m) (p q : Option Nat) :
    E.Exchanged (n.linked p q) (m.linked p q) := by
  cases h with
  | leaf hc hw => exact .leaf hc hw
  | layout h => exact .layout h
  | string h => exact .string h
  | mark h => exact .mark h
  | filled h => exact .filled h
  | branch hc hstring hlength h => exact .branch hc hstring hlength h

section Terminals

theorem same_leaf (hc : c.isComposite = false) (hw : Text.Inert w) :
    E.Same (Node.leaf c w t) (Node.leaf c w u) :=
  ⟨Exchanged.leaf (p := none) (q := none) hc hw, rfl⟩

theorem inert_takeWhile (hp : Text.special.any p = false) (t : Text) :
    Text.Inert (t.takeWhile p) :=
  .of_isPlain fun _ hc => Text.isPlain_of_class hp (List.all_eq_true.mp List.all_takeWhile _ hc)

theorem run_agrees (hc : c.isComposite = false) (hp : Text.special.any p = false) :
    E.correspondence.Agrees E.Same (run c p) (run c p) := by
  intro t u ht
  obtain ⟨htake, hdrop⟩ := ht.span hp
  unfold run
  rw [← htake]
  split
  next => exact .absent
  next h => exact .found (same_leaf hc (inert_takeWhile hp t)) hdrop

theorem word_agrees (hc : c.isComposite = false) (accept : Text → Bool) :
    E.correspondence.Agrees E.Same (word c accept) (word c accept) := by
  intro t u ht
  have hp : Text.special.any Char.isAlphanum = false := by decide
  obtain ⟨htake, hdrop⟩ := ht.span hp
  simp only [word_eq, ← htake]
  split
  · exact .found (same_leaf hc (inert_takeWhile hp t)) hdrop
  · exact .absent

theorem oneOf_agrees (hc : c.isComposite = false) (words : List Text) :
    E.correspondence.Agrees E.Same (oneOf words c) (oneOf words c) :=
  word_agrees hc _

theorem single_agrees (hc : c.isComposite = false) (hp : Text.special.any p = false) :
    E.correspondence.Agrees E.Same (single c p) (single c p) := by
  intro t u ht
  rcases ht.heads with ⟨rfl, rfl⟩ | ⟨x, t', u', hx, rfl, rfl, ht'⟩ |
    ⟨x, t', y, u', hx, hy, rfl, rfl⟩
  · exact .absent
  · have hinert : Text.Inert [x] := .of_isPlain fun y hy => List.mem_singleton.mp hy ▸ hx
    simp only [single]
    split
    · exact .found (same_leaf hc hinert) ht'
    · exact .absent
  · simp only [single, Text.eq_false_of_mem_special hp hx, Text.eq_false_of_mem_special hp hy]
    exact .absent

/-- Whether the next character is a plain one can be told from either text. -/
theorem Texts.head?_eq_iff {x : Char} (hx : Text.isPlain x = true) (h : E.Texts t u) :
    t.head? = some x ↔ u.head? = some x := by
  rcases h.heads with ⟨rfl, rfl⟩ | ⟨y, t', u', _, rfl, rfl, _⟩ | ⟨y, t', z, u', hy, hz, rfl, rfl⟩
  · rfl
  · rfl
  · simp [Text.ne_of_isPlain hx hy, Text.ne_of_isPlain hx hz]

theorem operator_agrees : E.correspondence.Agrees E.Same operator operator := by
  intro t u ht
  have hspecial : ∀ {x : Char}, x ∈ Text.special → x ∉ ['<', '>', '!'] := by
    intro x hx
    have hp : Text.special.any (fun x => ['<', '>', '!'].contains x) = false := by decide
    simpa using Text.eq_false_of_mem_special hp hx
  rcases ht.heads with ⟨rfl, rfl⟩ | ⟨x, t', u', hx, rfl, rfl, ht'⟩ |
    ⟨x, t', y, u', hx, hy, rfl, rfl⟩
  · exact .absent
  · have hinert : Text.Inert [x] ∧ Text.Inert [x, '='] := by
      constructor <;> refine .of_isPlain fun y hy => ?_
      · exact List.mem_singleton.mp hy ▸ hx
      · rcases List.mem_cons.mp hy with rfl | hy
        · exact hx
        · exact List.mem_singleton.mp hy ▸ (by decide)
    have hequals : t'.head? = some '=' ↔ u'.head? = some '=' :=
      ht'.head?_eq_iff (by decide)
    by_cases hpair : x ∈ ['<', '>', '!'] ∧ t'.head? = some '='
    · obtain ⟨hx', ht''⟩ := hpair
      cases ht' with
      | nil => cases ht''
      | plain hc h =>
          obtain rfl := Option.some.inj ht''
          rw [operator_pair hx', operator_pair hx']
          exact .found (same_leaf rfl hinert.2) h
      | piece hpiece h =>
          obtain ⟨y, w', z, v', rfl, rfl, hy, _⟩ := hpiece.heads
          obtain rfl := Option.some.inj ht''
          exact absurd hy (by decide)
    · by_cases hsingle : x ∈ ['<', '>']
      · have hnext : t'.head? ≠ some '=' := fun hnext =>
          hpair ⟨List.mem_append_left ['!'] hsingle, hnext⟩
        rw [operator_single hsingle hnext, operator_single hsingle (mt hequals.mpr hnext)]
        exact .found (same_leaf rfl hinert.1) ht'
      · have hnext : x = '!' → t'.head? ≠ some '=' := by
          rintro rfl hnext
          exact hpair ⟨by decide, hnext⟩
        rw [operator_eq_absent hsingle hnext,
          operator_eq_absent hsingle fun hx => mt hequals.mpr (hnext hx)]
        exact .absent
  · rw [operator_eq_absent_of_notMem (hspecial hx), operator_eq_absent_of_notMem (hspecial hy)]
    exact .absent

theorem hexBlob_agrees : E.correspondence.Agrees E.Same hexBlob hexBlob := by
  intro t u ht
  have hp : Text.special.any Text.isHexDigit = false := by decide
  have hhead : t.head?.any Text.isHexDigit = u.head?.any Text.isHexDigit := by
    rcases ht.heads with ⟨rfl, rfl⟩ | ⟨x, t', u', hx, rfl, rfl, ht'⟩ |
      ⟨x, t', y, u', hx, hy, rfl, rfl⟩
    · rfl
    · rfl
    · simp [Text.eq_false_of_mem_special hp hx, Text.eq_false_of_mem_special hp hy]
  unfold hexBlob
  rw [hhead]
  split
  · exact run_agrees rfl (by decide) t u ht
  · exact .absent

theorem mixedBlob_agrees (length : Nat) :
    E.correspondence.Agrees E.correspondence.node (mixedBlob length) (mixedBlob length) := by
  intro t u ht
  apply (hexBlob_agrees t u ht).bind
  intro n m rest rest' _ _ hnode hrest
  rw [hnode.2]
  split
  · exact .found hnode.1 hrest
  · exact .absent

theorem blobBeyond_agrees {r : Recognizer Node} (hr : E.correspondence.Agrees E.Same r r) :
    E.correspondence.Agrees E.correspondence.node (blobBeyond r) (blobBeyond r) := by
  intro t u ht
  apply (hr t u ht).bind
  intro n m rest rest' _ _ hnode hrest
  rw [hnode.2]
  exact mixedBlob_agrees _ t u ht

theorem whitespace_agrees :
    E.correspondence.Agrees E.correspondence.node whitespace whitespace := by
  intro t u ht
  unfold whitespace run
  rcases ht.layout_or with ⟨w, v, t', u', hw, hv, hwv, h', rfl, rfl⟩ | ⟨ht, hu⟩
  · rw [hw.takeWhile_append, hv.takeWhile_append, hw.dropWhile_append,
      hv.dropWhile_append]
    obtain ⟨x, w', rfl, _⟩ := hw.exists_cons
    obtain ⟨y, v', rfl, _⟩ := hv.exists_cons
    exact .found (Exchanged.layout (p := none) (q := none) hwv) h'
  · rw [ht, hu]
    exact .absent

end Terminals

section Values

theorem itemNameCaseSensitive_name {body : Text} (hbody : body ≠ [])
    (halnum : ∀ c ∈ body, c.isAlphanum = true) (t : Text) :
    itemNameCaseSensitive ('"' :: (body ++ ['"']) ++ t) =
      .found (Node.leaf .itemNameCaseSensitive ('"' :: (body ++ ['"'])) t) t := by
  have hrun : Text.IsRun (· != '"') body ('"' :: t) := by
    refine ⟨hbody, fun c hc => ?_, fun c hc => ?_⟩
    · have hne : c ≠ '"' := by
        rintro rfl
        exact absurd (halnum '"' hc) (by decide)
      simpa using hne
    · obtain rfl : '"' = c := by simpa using hc
      rfl
  have htake := hrun.takeWhile_append
  have hdrop := hrun.dropWhile_append
  have hall : body.all Char.isAlphanum = true := List.all_eq_true.mpr halnum
  simp [itemNameCaseSensitive, itemNameCaseSensitiveUnder, htake, hdrop, hbody, hall]

theorem itemNameCaseSensitive_agrees :
    E.correspondence.Agrees E.Same itemNameCaseSensitive itemNameCaseSensitive := by
  have habsent : ∀ {t u : Text}, t.head? ≠ some '"' → u.head? ≠ some '"' →
      E.correspondence.Matches E.Same (itemNameCaseSensitive t) (itemNameCaseSensitive u) := by
    intro t u ht hu
    rw [itemNameCaseSensitive_eq_absent ht, itemNameCaseSensitive_eq_absent hu]
    exact .absent
  intro t u ht
  cases ht with
  | nil => exact habsent (by simp) (by simp)
  | @plain c t u hc h =>
      have hne : c ≠ '"' := by
        rintro rfl
        exact Text.isPlain_iff.mp hc (by decide)
      exact habsent (by simpa using hne) (by simpa using hne)
  | piece hpiece h =>
      cases hpiece with
      | layout hw hv hwv =>
          obtain ⟨x, w', rfl, hx⟩ := hw.exists_cons
          obtain ⟨y, v', rfl, hy⟩ := hv.exists_cons
          apply habsent
          · rintro ⟨⟩
            cases hx
          · rintro ⟨⟩
            cases hy
      | name hbody halnum =>
          rw [itemNameCaseSensitive_name hbody halnum, itemNameCaseSensitive_name hbody halnum]
          refine .found (same_leaf rfl fun c hc => ?_) h
          rw [List.mem_cons, List.mem_append, List.mem_singleton] at hc
          rcases hc with rfl | hc | rfl
          · decide
          · exact Text.Inert.of_isPlain
              (fun c hc => Text.isPlain_of_isAlphanum (halnum c hc)) c hc
          · decide
      | string ht hu hs => exact habsent (by simp [Text.quoted]) (by simp [Text.quoted])
      | mark hmark => exact habsent (by simp) (by simp)
      | filled hu hmark => exact habsent (by simp) (by simp [Text.quoted])

theorem wrap_eq_bind (c : Category) (r : Recognizer Node) (t : Text) :
    wrap c r t = (r t).bind fun n rest =>
      .found (Node.branch c (Node.chain [n]) rest) rest := by
  unfold wrap node one
  cases r t <;> rfl

theorem exchanged_wrapped {n m : Node} (hc : c.isComposite = true) (hstring : c ≠ .string)
    (h : E.Exchanged n m) :
    E.Exchanged (Node.branch c (Node.chain [n]) t) (Node.branch c (Node.chain [m]) u) :=
  Exchanged.of_nodes hc hstring (.cons (h.linked none none) .nil)

theorem itemName_agrees : E.correspondence.Agrees E.Same itemName itemName := by
  intro t u ht
  have hinner := itemNameCaseSensitive_agrees.orElse
    (word_agrees (c := .itemNameCaseInsensitive) rfl
      fun w => !w.head?.any Char.isDigit && !isClauseWord w) t u ht
  unfold itemName itemNameUnder
  rw [wrap_eq_bind, wrap_eq_bind]
  refine hinner.bind fun n m rest rest' _ _ hnode hrest => .found ⟨?_, ?_⟩ hrest
  · exact exchanged_wrapped rfl (by decide) hnode.1
  · exact congrArg (fun w => [w].flatten) hnode.2

/-- A string and a literal are read alike where a placeholder is not put for a string. -/
theorem plainValue_matches {t u : Text} (ht : E.Texts t u)
    (hmark : E.correspondence.Matches E.Exchanged (placeholder t) (placeholder u))
    (hstring : E.correspondence.Matches E.Exchanged (Grammar.string t) (Grammar.string u)) :
    E.correspondence.Matches E.Exchanged ((placeholder.orElse literal) t)
      ((placeholder.orElse literal) u) := by
  have hnumber : E.correspondence.Agrees E.Same number number :=
    run_agrees rfl (by decide)
  have hplain : ∀ {r : Recognizer Node}, E.correspondence.Agrees E.Same r r →
      E.correspondence.Matches E.Exchanged (r t) (r u) :=
    fun hr => (hr t u ht).mono fun _ _ h => h.1
  have hinner := (((blobBeyond_agrees hnumber t u ht).orElse (hplain hnumber)).orElse
    hstring).orElse (hplain hexBlob_agrees)
  apply hmark.orElse
  unfold literal literalUnder
  rw [wrap_eq_bind, wrap_eq_bind]
  exact hinner.bind fun n m rest rest' _ _ hnode hrest =>
    .found (exchanged_wrapped rfl (by decide) hnode) hrest

theorem plainValue_agrees :
    E.correspondence.Agrees E.Exchanged (placeholder.orElse literal)
      (placeholder.orElse literal) := by
  have hother : ∀ {t u : Text}, E.Texts t u → t.head? ≠ some '?' → u.head? ≠ some '?' →
      t.head? ≠ some '\'' → u.head? ≠ some '\'' →
      E.correspondence.Matches E.Exchanged ((placeholder.orElse literal) t)
        ((placeholder.orElse literal) u) := by
    intro t u h ht hu ht' hu'
    apply plainValue_matches h
    · rw [placeholder, delimiter_eq_absent ht, delimiter_eq_absent hu]
      exact .absent
    · rw [string_eq_absent ht', string_eq_absent hu']
      exact .absent
  intro t u ht
  have hall := ht
  cases ht with
  | nil => exact hother hall (by simp) (by simp) (by simp) (by simp)
  | @plain c t u hc h =>
      have hne : c ≠ '?' ∧ c ≠ '\'' := by
        constructor <;> rintro rfl <;> exact Text.isPlain_iff.mp hc (by decide)
      exact hother hall (by simpa using hne.1) (by simpa using hne.1) (by simpa using hne.2)
        (by simpa using hne.2)
  | @piece _ _ t u hpiece h =>
      cases hpiece with
      | layout hw hv hwv =>
          obtain ⟨x, w', rfl, hx⟩ := hw.exists_cons
          obtain ⟨y, v', rfl, hy⟩ := hv.exists_cons
          have hne : ∀ c, Text.isLayout c = true → c ≠ '?' ∧ c ≠ '\'' := by
            intro c hc
            constructor <;> rintro rfl <;> cases hc
          exact hother hall (by simpa using (hne x hx).1) (by simpa using (hne y hy).1)
            (by simpa using (hne x hx).2) (by simpa using (hne y hy).2)
      | name hbody halnum => exact hother hall (by simp) (by simp) (by simp) (by simp)
      | @string s s' ht hu hs =>
          apply plainValue_matches hall
          · have habsent : ∀ s t, placeholder (Text.quoted s ++ t) = .absent := fun _ _ => rfl
            rw [habsent, habsent]
            exact .absent
          · rw [string_quoted s ht, string_quoted s' hu]
            exact .found (Exchanged.string (p := none) (q := none) hs) h
      | mark hmark =>
          apply plainValue_matches hall
          · rw [placeholder, List.singleton_append, List.singleton_append, delimiter_cons,
              delimiter_cons]
            exact .found (Exchanged.mark (p := none) (q := none) hmark) h
          · have habsent : ∀ t, Grammar.string ('?' :: t) = .absent := fun _ => rfl
            rw [List.singleton_append, List.singleton_append, habsent, habsent]
            exact .absent
      | @filled s hu hmark =>
          have hquoted : (placeholder.orElse literal) (Text.quoted s ++ u) =
              .found (Node.branch .literal (Node.chain [quotation s u]) u) u :=
            (orElse_of_absent rfl).trans (literal_quoted s hu)
          have hplaceholder : placeholder ('?' :: t) =
              .found (Node.leaf .placeholderInject ['?'] t) t := delimiter_cons _ _ t
          rw [hquoted, List.singleton_append, orElse_of_found hplaceholder]
          exact .found (Exchanged.filled (p := none) (q := none) hmark) h

end Values

section Laws

theorem Exchanged.after_eq {n m : Node} (h : E.Exchanged n m) (context : NameContext) :
    context.after n = context.after m := by
  cases h with
  | leaf hc hw => rfl
  | layout h => rfl
  | string h => rfl
  | mark h => rfl
  | filled h => rfl
  | @branch c ns ms t u p q hc hstring hlength h =>
      cases c <;> first | rfl | cases hc

theorem Exchanged.reservedWord {n m : Node} (h : E.Exchanged n m) :
    (n.category = .reservedWord ↔ m.category = .reservedWord) ∧
      (n.category = .reservedWord → n.spelling = m.spelling) := by
  cases h with
  | leaf hc hw => exact ⟨Iff.rfl, fun _ => rfl⟩
  | layout h => exact ⟨Iff.rfl, nofun⟩
  | string h => exact ⟨Iff.rfl, nofun⟩
  | mark h => exact ⟨Iff.rfl, nofun⟩
  | filled h => exact ⟨⟨nofun, nofun⟩, nofun⟩
  | branch hc hstring hlength h =>
      refine ⟨Iff.rfl, ?_⟩
      rintro rfl
      cases hc

/-- The keywords among some nodes. -/
theorem keywords_congr {ns ms : List Node} (h : List.Forall₂ E.Exchanged ns ms) :
    (ns.filter fun n => n.category = .reservedWord).filterMap
        (fun n => Keyword.ofText? n.spelling) =
      (ms.filter fun n => n.category = .reservedWord).filterMap
        fun n => Keyword.ofText? n.spelling := by
  induction h with
  | nil => rfl
  | @cons n m ns ms hnode hns ih =>
      obtain ⟨hcategory, hspelling⟩ := hnode.reservedWord
      by_cases hn : n.category = .reservedWord
      · rw [List.filter_cons_of_pos (by simp [hn]),
          List.filter_cons_of_pos (by simp [hcategory.mp hn]), List.filterMap_cons,
          List.filterMap_cons, hspelling hn, ih]
      · rw [List.filter_cons_of_neg (by simp [hn]),
          List.filter_cons_of_neg (by simp [mt hcategory.mpr hn]), ih]

theorem keywordsOf_quotation (s t : Text) (p q : Option Nat) :
    keywordsOf ((quotation s t).linked p q) = [] := by
  cases s <;> rfl

theorem Exchanged.keywordsOf_eq {n m : Node} (h : E.Exchanged n m) :
    keywordsOf n = keywordsOf m := by
  cases h with
  | leaf hc hw => rfl
  | layout h => rfl
  | string h => rw [keywordsOf_quotation, keywordsOf_quotation]
  | mark h => rfl
  | filled h => rfl
  | branch hc hstring hlength h =>
      exact keywords_congr (List.forall₂_iff_zip.mpr ⟨hlength, fun hx => h _ hx⟩)

/-- Reading respects every exchange. -/
theorem lawful (E : Exchange) : E.correspondence.Lawful := by
  have hplain : ∀ {r : Recognizer Node}, E.correspondence.Agrees E.Same r r →
      E.correspondence.Agrees E.Exchanged r r :=
    fun hr t u ht => (hr t u ht).mono fun _ _ h => h.1
  exact
    { nil_iff := fun _ _ ht => Texts.nil_iff ht
      dropLayout := fun _ _ ht => Texts.dropLayout ht
      room := by
        rintro k _ rfl
        cases k with
        | zero => exact Or.inl ⟨rfl, rfl⟩
        | succ k => exact Or.inr (Or.inl ⟨k, k, rfl, rfl, rfl⟩)
      expected := fun _ _ _ _ => Or.inl trivial
      unterminated := fun _ _ _ _ _ => Or.inl trivial
      trailing := fun _ _ _ => Or.inl trivial
      tooDeep := fun _ _ _ => Or.inl trivial
      linked := fun p q _ _ h => Exchanged.linked h p q
      branch := fun _ _ _ _ _ hc hstring hns _ => Exchanged.of_nodes hc hstring hns
      after := fun _ _ h => Exchanged.after_eq h
      reservedWord := fun _ _ h =>
        ⟨(Exchanged.reservedWord h).1, fun hn => congrArg _ ((Exchanged.reservedWord h).2 hn)⟩
      keywordsOf := fun _ _ h => Exchanged.keywordsOf_eq h
      whitespace := whitespace_agrees
      symbol := hplain (single_agrees rfl (by decide))
      operator := hplain operator_agrees
      commandWord := hplain (word_agrees rfl _)
      whereKeyword := hplain (oneOf_agrees rfl _)
      conjunction := hplain (oneOf_agrees rfl _)
      delimiter := by
        have hpunctuation : punctuation.all Text.isPlain = true := by decide
        refine fun x hx c hc => hplain (single_agrees hc (List.any_eq_false.mpr fun y hy => ?_))
        simpa using Text.ne_of_isPlain (List.all_eq_true.mp hpunctuation x hx) hy
      itemName := hplain itemName_agrees
      blobBeyondName := blobBeyond_agrees itemName_agrees
      plainValue := plainValue_agrees }

end Laws

end Exchange

/-- A source that differs from one that is read by an exchange of pieces is read into a
tree that differs by the same exchange. -/
theorem exists_exchanged_tree {E : Exchange} {depth : Nat} {q q' : Text} {root : Node}
    (h : parse depth q = .ok root) (hq : E.Texts q q') :
    ∃ root', parse depth q' = .ok root' ∧ E.Exchanged root root' :=
  Correspondence.parse_eq_ok_of_text E.lawful rfl hq h

end QueryTree
