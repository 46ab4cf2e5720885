import QueryTree.Grammar.Selector
import QueryTree.Proofs.Derivation.Quotation

/-!
# Texts up to the case of letters

Two texts are the same up to case if they have the same upper-case form. Only the
lower-case letters differ from this form, so whether a class of characters tells the cases
of a letter apart is settled by looking at these letters. A class that does not takes the
same run off both texts.
-/

namespace QueryTree

namespace Text

/-- The lower-case letters of ASCII. -/
def lowerLetters : Text :=
  "abcdefghijklmnopqrstuvwxyz".toList

theorem toUpper_of_notMem {c : Char} (h : c ∉ lowerLetters) : c.toUpper = c := by
  refine dif_neg ?_
  rintro ⟨hlow, hhigh⟩
  have hletters : lowerLetters = (List.range 26).map fun i => Char.ofNat (97 + i) := by decide
  have hlow' : 97 ≤ c.toNat := hlow
  have hhigh' : c.toNat ≤ 122 := hhigh
  apply h
  rw [hletters, List.mem_map]
  refine ⟨c.toNat - 97, List.mem_range.mpr (by omega), ?_⟩
  rw [Nat.add_sub_of_le hlow', Char.ofNat_toNat]

theorem toUpper_of_mem {cs : Text} (hcs : cs.all (fun c => !lowerLetters.contains c) = true)
    {c : Char} (h : c ∈ cs) : c.toUpper = c :=
  toUpper_of_notMem (by simpa using List.all_eq_true.mp hcs c h)

/-- What is checked of the lower-case letters holds of every character that case matters
for. -/
theorem forall_of_lowerLetters {P : Char → Char → Prop} (hsame : ∀ c, P c c)
    (h : ∀ c ∈ lowerLetters, P c c.toUpper) (c : Char) : P c c.toUpper := by
  by_cases hc : c ∈ lowerLetters
  · exact h c hc
  · rw [toUpper_of_notMem hc]
    exact hsame c

/-- Whether a class of characters holds both cases of a letter or neither. -/
def CaseBlind (p : Char → Bool) : Prop :=
  ∀ c : Char, p c.toUpper = p c

theorem caseBlind_of_all {p : Char → Bool}
    (h : lowerLetters.all (fun c => p c.toUpper == p c) = true) : CaseBlind p :=
  forall_of_lowerLetters (P := fun c d => p d = p c) (fun _ => rfl)
    fun c hc => beq_iff_eq.mp (List.all_eq_true.mp h c hc)

theorem caseBlind_isLayout : CaseBlind isLayout := caseBlind_of_all (by decide)

theorem caseBlind_isDigit : CaseBlind Char.isDigit := caseBlind_of_all (by decide)

theorem caseBlind_isAlpha : CaseBlind Char.isAlpha := caseBlind_of_all (by decide)

theorem caseBlind_isAlphanum : CaseBlind Char.isAlphanum := caseBlind_of_all (by decide)

theorem caseBlind_isHexDigit : CaseBlind isHexDigit := caseBlind_of_all (by decide)

theorem caseBlind_isBlobChar : CaseBlind Grammar.isBlobChar := caseBlind_of_all (by decide)

theorem caseBlind_isSymbol : CaseBlind fun c => Grammar.symbols.contains c :=
  caseBlind_of_all (by decide)

/-- A character that no letter has for its upper case. -/
theorem caseBlind_eq {x : Char}
    (h : lowerLetters.all (fun c => (c.toUpper == x) == (c == x)) = true) :
    CaseBlind fun c => c == x :=
  caseBlind_of_all h

theorem CaseBlind.toUpper_eq_iff {x : Char} (hx : CaseBlind fun c => c == x) {c : Char} :
    c.toUpper = x ↔ c = x := by
  have hc : (c.toUpper == x) = (c == x) := hx c
  rw [← beq_iff_eq, hc, beq_iff_eq]

theorem CaseBlind.toUpper_mem_iff {cs : Text} (hcs : CaseBlind fun c => cs.contains c) {c : Char} :
    c.toUpper ∈ cs ↔ c ∈ cs := by
  have hc : cs.contains c.toUpper = cs.contains c := hcs c
  rw [← List.contains_iff_mem, hc, List.contains_iff_mem]

@[simp] theorem upper_nil : upper [] = [] := rfl

@[simp] theorem upper_cons (c : Char) (t : Text) : upper (c :: t) = c.toUpper :: upper t := rfl

@[simp] theorem upper_append (s t : Text) : upper (s ++ t) = upper s ++ upper t :=
  List.map_append

@[simp] theorem length_upper (t : Text) : (upper t).length = t.length :=
  List.length_map _

@[simp] theorem upper_eq_nil {t : Text} : upper t = [] ↔ t = [] :=
  List.map_eq_nil_iff

@[simp] theorem upper_upper (t : Text) : upper (upper t) = upper t := by
  have hletters : lowerLetters.all (fun c => c.toUpper.toUpper == c.toUpper) = true := by decide
  rw [upper, upper, List.map_map]
  apply List.map_congr_left
  intro c _
  exact forall_of_lowerLetters (P := fun c d => d.toUpper = c.toUpper) (fun _ => rfl)
    (fun c hc => beq_iff_eq.mp (List.all_eq_true.mp hletters c hc)) c

/-- Letters of either case take one byte. -/
@[simp] theorem byteSize_upper (t : Text) : byteSize (upper t) = byteSize t := by
  have hletters : lowerLetters.all (fun c => c.toUpper.utf8Size == c.utf8Size) = true := by decide
  induction t with
  | nil => rfl
  | cons c t ih =>
      have hc := forall_of_lowerLetters (P := fun c d => d.utf8Size = c.utf8Size) (fun _ => rfl)
        (fun c hc => beq_iff_eq.mp (List.all_eq_true.mp hletters c hc)) c
      rw [upper_cons, byteSize_cons, byteSize_cons, hc, ih]

theorem CaseBlind.comp {p : Char → Bool} (hp : CaseBlind p) : p ∘ Char.toUpper = p :=
  funext hp

theorem takeWhile_upper {p : Char → Bool} (hp : CaseBlind p) (t : Text) :
    (upper t).takeWhile p = upper (t.takeWhile p) := by
  rw [upper, List.takeWhile_map, hp.comp, upper]

theorem dropWhile_upper {p : Char → Bool} (hp : CaseBlind p) (t : Text) :
    (upper t).dropWhile p = upper (t.dropWhile p) := by
  rw [upper, List.dropWhile_map, hp.comp, upper]

theorem any_upper {p : Char → Bool} (hp : CaseBlind p) (t : Text) :
    (upper t).any p = t.any p := by
  rw [upper, List.any_map, hp.comp]

theorem all_upper {p : Char → Bool} (hp : CaseBlind p) (t : Text) :
    (upper t).all p = t.all p := by
  rw [upper, List.all_map, hp.comp]

theorem any_head?_upper {p : Char → Bool} (hp : CaseBlind p) (t : Text) :
    (upper t).head?.any p = t.head?.any p := by
  cases t with
  | nil => rfl
  | cons c t => exact hp c

/-- The upper case of a text begins with a character that is no letter if the text does. -/
theorem head?_upper_eq {x : Char} (hx : CaseBlind fun c => c == x) (t : Text) :
    (upper t).head? = some x ↔ t.head? = some x := by
  cases t with
  | nil => rfl
  | cons c t =>
      rw [upper_cons, List.head?_cons, List.head?_cons, Option.some.injEq, Option.some.injEq,
        hx.toUpper_eq_iff]

theorem sameWord_upper (known word : Text) : sameWord known (upper word) = sameWord known word := by
  rw [sameWord, upper_upper, sameWord]

end Text

theorem Keyword.ofText?_upper (word : Text) : ofText? (Text.upper word) = ofText? word :=
  ofText?_congr (Text.upper_upper word)

theorem isClauseWord_upper (word : Text) : isClauseWord (Text.upper word) = isClauseWord word := by
  rw [isClauseWord, Keyword.ofText?_upper, isClauseWord]

namespace Grammar

open Text

theorem isMixed_upper (w : Text) : isMixed (upper w) = isMixed w := by
  rw [isMixed, any_upper caseBlind_isDigit, any_upper caseBlind_isAlpha, isMixed]

/-- The body of a string ends at the same quote, whatever the case of its letters. -/
theorem splitQuoted_upper (t : Text) :
    splitQuoted (upper t) = (upper (splitQuoted t).1, upper (splitQuoted t).2) := by
  have hquote : CaseBlind fun c => c == '\'' := caseBlind_eq (by decide)
  have hupper : Char.toUpper '\'' = '\'' := rfl
  fun_induction splitQuoted t with
  | case1 => rfl
  | case2 t ih =>
      rw [upper_cons, upper_cons, hupper, splitQuoted, ih]
      rfl
  | case3 t hpair =>
      have hhead : t.head? ≠ some '\'' := by
        intro h
        obtain ⟨u, rfl⟩ := List.head?_eq_some_iff.mp h
        exact hpair u rfl
      rw [upper_cons, hupper, splitQuoted_quote (mt (head?_upper_eq hquote t).mp hhead)]
      rfl
  | case4 c t hpair hsingle ih =>
      have hc : c ≠ '\'' := fun hc => hsingle hc
      rw [upper_cons, splitQuoted_cons_of_ne (mt hquote.toUpper_eq_iff.mp hc), ih]
      rfl

end Grammar

end QueryTree
