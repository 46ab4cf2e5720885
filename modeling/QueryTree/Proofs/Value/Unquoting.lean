import QueryTree.Grammar.Production
import QueryTree.Proofs.Derivation.Tree

/-!
# Unquoting

To read a string is to undo a quotation. Whatever stands between the quotes, however many
quotes are in it and wherever they are, an input is the quotation of at most one text in front
of a rest that does not go on with a quote. A scan for the closing quote may look at
characters or at bytes: no byte of another character is the byte of a quote.
-/

namespace QueryTree

namespace Text

/-- The quotation at the front of an input can be undone in one way only. -/
theorem BeginsQuoted.unique {input s s' rest rest' : Text} (h : BeginsQuoted input s rest)
    (h' : BeginsQuoted input s' rest') : s = s' ∧ rest = rest' :=
  Grammar.quoted_append_inj h.closed h'.closed (h.cover.symm.trans h'.cover)

theorem BeginsQuoted.head? {input s rest : Text} (h : BeginsQuoted input s rest) :
    input.head? = some '\'' := by
  rw [h.cover, quoted_append, List.head?_cons]

/-- Two texts are never quoted alike. -/
theorem quoted_injective : Function.Injective quoted := by
  intro s s' h
  have hquoted : BeginsQuoted (quoted s) s [] := ⟨(List.append_nil _).symm, nofun⟩
  have hquoted' : BeginsQuoted (quoted s) s' [] := ⟨by rw [h, List.append_nil], nofun⟩
  exact (hquoted.unique hquoted').1

section Bytes

/-- The bytes of the UTF-8 encoding of a text. -/
def bytes (t : Text) : List UInt8 :=
  t.flatMap String.utf8EncodeChar

/-- The number of bytes before the first byte of a quote that is not doubled. -/
def bodySize : List UInt8 → Nat
  | [] => 0
  | 39 :: 39 :: bytes => bodySize bytes + 2
  | 39 :: _ => 0
  | _ :: bytes => bodySize bytes + 1

theorem bodySize_append {bytes : List UInt8} (h : 39 ∉ bytes) (more : List UInt8) :
    bodySize (bytes ++ more) = bytes.length + bodySize more := by
  induction bytes with
  | nil => rw [List.nil_append, List.length_nil, Nat.zero_add]
  | cons byte bytes ih =>
      rw [List.mem_cons, not_or] at h
      have hbyte : byte ≠ 39 := Ne.symm h.1
      rw [List.cons_append, bodySize, ih h.2, List.length_cons, Nat.add_right_comm]
      · exact fun _ hquote => absurd hquote hbyte
      · exact hbyte

/-- The bytes of a character other than a quote are not those of a quote. -/
theorem quoteByte_notMem {c : Char} (h : c ≠ '\'') : 39 ∉ String.utf8EncodeChar c := by
  have hval : c.val.toNat ≠ 39 := fun hval => h (Char.ext (UInt32.toNat.inj hval))
  have hne : ∀ k : Nat, k % 256 ≠ 39 → (39 : UInt8) ≠ UInt8.ofNat k := by
    intro k hk hbyte
    apply hk
    rw [← UInt8.toNat_ofNat', ← hbyte]
    rfl
  simp only [String.utf8EncodeChar]
  split
  · simp only [List.mem_singleton]
    exact hne _ (by omega)
  -- A longer encoding has only bytes from 128 on.
  · split
    · simp only [List.mem_cons, List.not_mem_nil, or_false, not_or]
      exact ⟨hne _ (by omega), hne _ (by omega)⟩
    · split
      · simp only [List.mem_cons, List.not_mem_nil, or_false, not_or]
        exact ⟨hne _ (by omega), hne _ (by omega), hne _ (by omega)⟩
      · simp only [List.mem_cons, List.not_mem_nil, or_false, not_or]
        exact ⟨hne _ (by omega), hne _ (by omega), hne _ (by omega), hne _ (by omega)⟩

@[simp] theorem bytes_quote_cons (t : Text) : bytes ('\'' :: t) = 39 :: bytes t := rfl

theorem bytes_cons (c : Char) (t : Text) :
    bytes (c :: t) = String.utf8EncodeChar c ++ bytes t := rfl

/-- The bytes of a text begin with those of a quote only if the text does. -/
theorem head?_bytes {t : Text} (h : t.head? ≠ some '\'') : (bytes t).head? ≠ some 39 := by
  cases t with
  | nil => exact nofun
  | cons c t =>
      have hc : c ≠ '\'' := fun hc => h (congrArg some hc)
      rw [bytes_cons, List.head?_append_of_ne_nil _ String.utf8EncodeChar_ne_nil]
      exact fun hhead => quoteByte_notMem hc (List.mem_of_mem_head? hhead)

/-- Looking at the bytes of a text, the body of a string ends where it does by the
characters. -/
theorem bodySize_bytes (t : Text) :
    bodySize (bytes t) = byteSize (Grammar.splitQuoted t).1 := by
  fun_induction Grammar.splitQuoted t with
  | case1 => rfl
  | case2 t ih =>
      rw [bytes_quote_cons, bytes_quote_cons, bodySize, ih, byteSize_cons, byteSize_cons,
        Nat.add_comm, ← Nat.add_assoc]
      rfl
  | case3 t hne =>
      have hhead : (bytes t).head? ≠ some 39 := by
        apply head?_bytes
        intro h
        obtain ⟨rest, rfl⟩ := List.head?_eq_some_iff.mp h
        exact hne rest rfl
      rw [bytes_quote_cons, byteSize_nil]
      cases hbytes : bytes t with
      | nil => rfl
      | cons byte more =>
          rw [hbytes] at hhead
          rw [bodySize]
          rintro more ⟨⟩
          exact hhead rfl
  | case4 c t hpair hsingle ih =>
      have hc : c ≠ '\'' := fun hc => hsingle hc
      rw [bytes_cons, bodySize_append (quoteByte_notMem hc), ih, byteSize_cons,
        String.length_utf8EncodeChar]

end Bytes

end Text

section Reading

open Grammar

variable {depth : Nat} {source input : Text}

/-- A string has its quotes and, if there is one, the body between them. -/
theorem quotation_labels (s rest : Text) :
    (quotation s rest).children.map Node.label = (.quote, ['\'']) ::
      (if s = [] then [] else [(.inputCharacters, Text.doubleQuotes s)]) ++
      [(.quote, ['\''])] := by
  have hchildren : (quotation s rest).children.map Node.label =
      (quotationParts s rest).map Node.label :=
    Node.map_chain (fun _ _ _ => rfl) _
  rw [hchildren]
  cases s with
  | nil => rfl
  | cons c s => rfl

/-- The string at the front of an input, by itself. -/
theorem recognize_string_cases (depth : Nat) (source input : Text) :
    (input.head? ≠ some '\'' ∧
        recognize depth source .string .optional input = .ok none) ∨
      (∃ s rest, Text.BeginsQuoted input s rest ∧
        recognize depth source .string .optional input = .ok (some (quotation s rest))) ∨
      (input.head? = some '\'' ∧ (¬∃ s rest, Text.BeginsQuoted input s rest) ∧
        recognize depth source .string .optional input =
          .error (.unterminated .string '\'' (Text.byteSize source))) := by
  have hreader : Production.string.recognizer depth .optional input = string input := rfl
  unfold recognize
  rw [hreader]
  rcases string_cases input with ⟨hquote, hstring⟩ | ⟨s, rest, hquoted, hstring⟩ |
    ⟨hquote, hnone, hstring⟩
  · rw [hstring]
    exact Or.inl ⟨hquote, rfl⟩
  · rw [hstring]
    exact Or.inr (Or.inl ⟨s, rest, hquoted, rfl⟩)
  · rw [hstring]
    exact Or.inr (Or.inr ⟨hquote, hnone, rfl⟩)

theorem recognize_string_eq_none :
    recognize depth source .string .optional input = .ok none ↔ input.head? ≠ some '\'' := by
  rcases recognize_string_cases depth source input with ⟨hquote, hanswer⟩ |
    ⟨s, rest, hquoted, hanswer⟩ | ⟨hquote, _, hanswer⟩
  · exact ⟨fun _ => hquote, fun _ => hanswer⟩
  · rw [hanswer]
    exact ⟨nofun, fun hquote => absurd hquoted.head? hquote⟩
  · rw [hanswer]
    exact ⟨nofun, fun hne => absurd hquote hne⟩

theorem recognize_string_eq_some {n : Node} :
    recognize depth source .string .optional input = .ok (some n) ↔
      ∃ s rest, Text.BeginsQuoted input s rest ∧ n = quotation s rest := by
  rcases recognize_string_cases depth source input with ⟨hquote, hanswer⟩ |
    ⟨s, rest, hquoted, hanswer⟩ | ⟨hquote, hnone, hanswer⟩
  · rw [hanswer]
    refine ⟨nofun, ?_⟩
    rintro ⟨s, rest, hquoted, _⟩
    exact absurd hquoted.head? hquote
  · rw [hanswer]
    constructor
    · rintro ⟨⟩
      exact ⟨s, rest, hquoted, rfl⟩
    · rintro ⟨s', rest', hquoted', rfl⟩
      obtain ⟨rfl, rfl⟩ := hquoted.unique hquoted'
      rfl
  · rw [hanswer]
    refine ⟨nofun, ?_⟩
    rintro ⟨s, rest, hquoted, _⟩
    exact absurd ⟨s, rest, hquoted⟩ hnone

theorem recognize_string_eq_error {e : ParseError} :
    recognize depth source .string .optional input = .error e ↔
      input.head? = some '\'' ∧ (¬∃ s rest, Text.BeginsQuoted input s rest) ∧
        e = .unterminated .string '\'' (Text.byteSize source) := by
  rcases recognize_string_cases depth source input with ⟨hquote, hanswer⟩ |
    ⟨s, rest, hquoted, hanswer⟩ | ⟨hquote, hnone, hanswer⟩
  · rw [hanswer]
    exact ⟨nofun, fun h => absurd h.1 hquote⟩
  · rw [hanswer]
    exact ⟨nofun, fun h => absurd ⟨s, rest, hquoted⟩ h.2.1⟩
  · rw [hanswer]
    constructor
    · rintro ⟨⟩
      exact ⟨hquote, hnone, rfl⟩
    · rintro ⟨_, _, rfl⟩
      rfl

/-- Reading a string is the inverse of quoting a text. A string is absent exactly if the input
does not begin with a quote. It is found exactly if the input is the quotation of a text in
front of a rest that does not go on with a quote. The text and the rest are then the only
ones, the string spells the quotation, and between its quotes there is the text with its
quotes doubled, unless it is empty. Otherwise the string is not terminated at the end of the
source. It does not matter whether the end of the body is looked for by characters or by
bytes. No two texts are quoted alike, and a string in a tree is the quotation of just one. -/
theorem string_inverts_quoting (depth : Nat) (source input : Text) :
    (recognize depth source .string .optional input = .ok none ↔ input.head? ≠ some '\'') ∧
      (∀ n, recognize depth source .string .optional input = .ok (some n) ↔
        ∃ s rest, Text.BeginsQuoted input s rest ∧ n = quotation s rest) ∧
      (∀ e, recognize depth source .string .optional input = .error e ↔
        input.head? = some '\'' ∧ (¬∃ s rest, Text.BeginsQuoted input s rest) ∧
          e = .unterminated .string '\'' (Text.byteSize source)) ∧
      (∀ s rest s' rest', Text.BeginsQuoted input s rest → Text.BeginsQuoted input s' rest' →
        s = s' ∧ rest = rest') ∧
      (∀ s rest, (quotation s rest).category = .string ∧
        (quotation s rest).spelling = Text.quoted s ∧ (quotation s rest).following = rest ∧
        (quotation s rest).children.map Node.label = (.quote, ['\'']) ::
          (if s = [] then [] else [(.inputCharacters, Text.doubleQuotes s)]) ++
          [(.quote, ['\''])]) ∧
      Text.bodySize (Text.bytes input) = Text.byteSize (splitQuoted input).1 ∧
      Function.Injective Text.quoted ∧
      ∀ q root, parse depth q = .ok root → ∀ n ∈ root.preorder, n.category = .string →
        ∃! s, n.spelling = Text.quoted s := by
  refine ⟨recognize_string_eq_none, fun n => recognize_string_eq_some,
    fun e => recognize_string_eq_error, fun s rest s' rest' h h' => h.unique h',
    fun s rest => ⟨rfl, quotation_spelling s rest, rfl, ?_⟩, Text.bodySize_bytes input,
    Text.quoted_injective, fun q root h n hn hc => ?_⟩
  · exact quotation_labels s rest
  · obtain ⟨s, hs, _⟩ : Category.Spells .string n.spelling n.following :=
      hc ▸ (formed_of_parse h n hn).spells
    exact ⟨s, hs, fun s' hs' => Text.quoted_injective (hs'.symm.trans hs)⟩

end Reading

end QueryTree
