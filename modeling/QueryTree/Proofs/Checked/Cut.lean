import QueryTree.Proofs.Value.Unquoting

/-!
# Cutting a text at a byte

Positions in a text count the bytes of its encoding. A text can be cut where a character begins
and where it ends itself, and to cut it elsewhere is an error. A scan that goes from byte to
byte stops at a place where the text can be cut, as long as it looks for ASCII characters or for
the end of a run of them: the bytes of other characters are greater.
-/

namespace QueryTree.Text

section Cut

/-- Cuts a text at a position, unless the position is inside a character or past the end. -/
def cut? : Text → Nat → Option (Text × Text)
  | t, 0 => some ([], t)
  | [], _ + 1 => none
  | c :: t, i + 1 =>
    if c.utf8Size ≤ i + 1 then
      (cut? t (i + 1 - c.utf8Size)).map fun parts => (c :: parts.1, parts.2)
    else none

/-- Whether a character of a text begins at a position, or the text ends there. -/
def IsBoundary (t : Text) (i : Nat) : Prop :=
  i = (bytes t).length ∨ ∃ byte, (bytes t)[i]? = some byte ∧ byte.IsUTF8FirstByte

variable {t w rest : Text} {i : Nat}

@[simp] theorem cut?_zero (t : Text) : cut? t 0 = some ([], t) := by
  unfold cut?
  rfl

theorem cut?_cons {c : Char} (h : c.utf8Size ≤ i) :
    cut? (c :: t) i = (cut? t (i - c.utf8Size)).map fun parts => (c :: parts.1, parts.2) := by
  cases i with
  | zero => exact absurd (Nat.le_zero.mp h) c.utf8Size_pos.ne'
  | succ i => rw [cut?, if_pos h]

/-- A text can be cut after what it begins with. -/
@[simp] theorem cut?_append (w rest : Text) : cut? (w ++ rest) (byteSize w) = some (w, rest) := by
  induction w with
  | nil => exact cut?_zero rest
  | cons c w ih =>
      rw [List.cons_append, byteSize_cons, cut?_cons (Nat.le_add_right _ _),
        Nat.add_sub_cancel_left, ih, Option.map_some]

theorem cut?_eq_some (h : cut? t i = some (w, rest)) : t = w ++ rest ∧ i = byteSize w := by
  fun_induction cut? t i generalizing w with
  | case1 t =>
      obtain ⟨rfl, rfl⟩ := Prod.mk.inj (Option.some.inj h)
      exact ⟨rfl, rfl⟩
  | case2 => cases h
  | case3 c t i hle ih =>
      obtain ⟨⟨w', rest'⟩, hcut, hparts⟩ := Option.map_eq_some_iff.mp h
      obtain ⟨rfl, rfl⟩ := Prod.mk.inj hparts
      obtain ⟨rfl, hsize⟩ := ih hcut
      refine ⟨rfl, ?_⟩
      change i + 1 = c.utf8Size + byteSize w'
      omega
  | case4 => cases h

@[simp] theorem length_bytes (t : Text) : (bytes t).length = byteSize t := by
  induction t with
  | nil => rfl
  | cons c t ih =>
      rw [bytes_cons, List.length_append, String.length_utf8EncodeChar, ih, byteSize_cons]

theorem byteSize_dropWhile_le (p : Char → Bool) (t : Text) :
    byteSize (t.dropWhile p) ≤ byteSize t := by
  have hcover := congrArg byteSize (List.takeWhile_append_dropWhile (p := p) (l := t))
  rw [byteSize_append] at hcover
  exact hcover ▸ Nat.le_add_left _ _

/-- A text can be cut exactly at its boundaries, and nothing of it is lost. -/
theorem isBoundary_iff : IsBoundary t i ↔ ∃ w rest, t = w ++ rest ∧ i = byteSize w := by
  constructor
  · intro h
    induction t generalizing i with
    | nil =>
        rcases h with h | ⟨_, h, _⟩
        · exact ⟨[], [], rfl, h⟩
        · cases h
    | cons c t ih =>
        rcases Nat.lt_or_ge i c.utf8Size with hi | hi
        · -- inside the first character only its first byte begins a character
          have hlt : i < (String.utf8EncodeChar c).length := by rwa [String.length_utf8EncodeChar]
          have hbyte : (bytes (c :: t))[i]? = some (String.utf8EncodeChar c)[i] := by
            rw [bytes_cons, List.getElem?_append_left hlt, List.getElem?_eq_getElem hlt]
          have hzero : i = 0 := by
            rcases h with h | ⟨_, h, hfirst⟩
            · rw [length_bytes, byteSize_cons] at h
              omega
            · obtain rfl := Option.some.inj (hbyte.symm.trans h)
              exact UInt8.isUTF8FirstByte_getElem_utf8EncodeChar.mp hfirst
          exact ⟨[], c :: t, rfl, hzero⟩
        · have hrest : IsBoundary t (i - c.utf8Size) := by
            refine h.imp (fun h => ?_) fun h => ?_
            · rw [length_bytes, byteSize_cons] at h
              rw [length_bytes]
              omega
            · obtain ⟨byte, hbyte, hfirst⟩ := h
              rw [bytes_cons, List.getElem?_append_right (by rwa [String.length_utf8EncodeChar]),
                String.length_utf8EncodeChar] at hbyte
              exact ⟨byte, hbyte, hfirst⟩
          obtain ⟨w, rest, rfl, hsize⟩ := ih hrest
          refine ⟨c :: w, rest, rfl, ?_⟩
          rw [byteSize_cons]
          omega
  · rintro ⟨w, rest, rfl, rfl⟩
    have hbytes : bytes (w ++ rest) = bytes w ++ bytes rest := List.flatMap_append
    cases rest with
    | nil => exact Or.inl (by rw [List.append_nil, length_bytes])
    | cons c rest =>
        right
        have hlt : 0 < (String.utf8EncodeChar c).length := by
          rw [String.length_utf8EncodeChar]
          exact c.utf8Size_pos
        refine ⟨(String.utf8EncodeChar c)[0], ?_,
          UInt8.isUTF8FirstByte_getElem_utf8EncodeChar.mpr rfl⟩
        rw [hbytes, ← length_bytes, List.getElem?_append_right (Nat.le_refl _), Nat.sub_self,
          bytes_cons, List.getElem?_append_left hlt, List.getElem?_eq_getElem hlt]

theorem isSome_cut?_iff : (cut? t i).isSome = true ↔ IsBoundary t i := by
  rw [isBoundary_iff, Option.isSome_iff_exists]
  constructor
  · rintro ⟨⟨w, rest⟩, hcut⟩
    exact ⟨w, rest, cut?_eq_some hcut⟩
  · rintro ⟨w, rest, rfl, rfl⟩
    exact ⟨_, cut?_append w rest⟩

end Cut

section Scan

/-- Whether all characters of a class are ASCII characters. -/
def IsAscii (p : Char → Bool) : Prop :=
  ∀ c, p c = true → c.val ≤ 127

/-- Whether a byte is an ASCII character of a class. -/
def isByteOf (p : Char → Bool) (byte : UInt8) : Bool :=
  byte < 128 && p (Char.ofNat byte.toNat)

/-- The number of bytes at the front that are characters of a class. -/
def scan (p : Char → Bool) (t : Text) : Nat :=
  ((bytes t).takeWhile (isByteOf p)).length

/-- The position of the first byte that is a given character. -/
def find? (x : Char) (t : Text) : Option Nat :=
  (bytes t).findIdx? fun byte => isByteOf (· == x) byte

theorem utf8EncodeChar_of_le {c : Char} (h : c.val ≤ 127) :
    String.utf8EncodeChar c = [c.toUInt8] :=
  String.utf8EncodeChar_eq_singleton (Char.utf8Size_eq_one_iff.mpr h)

theorem isByteOf_toUInt8 (p : Char → Bool) {c : Char} (h : c.val ≤ 127) :
    isByteOf p c.toUInt8 = p c := by
  have hval : c.val.toNat ≤ 127 := h
  have htoNat : c.toUInt8.toNat = c.toNat := by
    change c.val.toUInt8.toNat = c.val.toNat
    rw [UInt32.toNat_toUInt8]
    exact Nat.mod_eq_of_lt (by omega)
  have hlt : c.toUInt8 < 128 := by
    rw [UInt8.lt_iff_toNat_lt, htoNat]
    exact Nat.lt_succ_of_le hval
  rw [isByteOf, htoNat, Char.ofNat_toNat, decide_eq_true hlt, Bool.true_and]

/-- The bytes of a character that is not an ASCII character are none, either. -/
theorem isByteOf_eq_false (p : Char → Bool) {c : Char} (h : ¬c.val ≤ 127) :
    ∀ byte ∈ String.utf8EncodeChar c, isByteOf p byte = false := by
  have hgreat : ∀ k : Nat, 128 ≤ k % 256 → isByteOf p (UInt8.ofNat k) = false := by
    intro k hk
    have hge : ¬UInt8.ofNat k < 128 := by
      rw [UInt8.lt_iff_toNat_lt, UInt8.toNat_ofNat']
      exact Nat.not_lt.mpr hk
    rw [isByteOf, decide_eq_false hge, Bool.false_and]
  have hval : 127 < c.val.toNat := UInt32.lt_iff_toNat_lt.mp (UInt32.not_le.mp h)
  intro byte hbyte
  simp only [String.utf8EncodeChar] at hbyte
  split at hbyte
  · omega
  · split at hbyte
    · simp only [List.mem_cons, List.not_mem_nil, or_false] at hbyte
      rcases hbyte with rfl | rfl <;> exact hgreat _ (by omega)
    · split at hbyte
      · simp only [List.mem_cons, List.not_mem_nil, or_false] at hbyte
        rcases hbyte with rfl | rfl | rfl <;> exact hgreat _ (by omega)
      · simp only [List.mem_cons, List.not_mem_nil, or_false] at hbyte
        rcases hbyte with rfl | rfl | rfl | rfl <;> exact hgreat _ (by omega)

/-- A scan over bytes ends where the run of characters ends. -/
theorem scan_eq {p : Char → Bool} (hp : IsAscii p) (t : Text) :
    scan p t = byteSize (t.takeWhile p) := by
  induction t with
  | nil => rfl
  | cons c t ih =>
      rw [scan] at ih ⊢
      by_cases hc : c.val ≤ 127
      · rw [bytes_cons, utf8EncodeChar_of_le hc, List.singleton_append, List.takeWhile_cons,
          isByteOf_toUInt8 p hc, List.takeWhile_cons]
        split
        · rw [List.length_cons, ih, byteSize_cons, Char.utf8Size_eq_one_iff.mpr hc, Nat.add_comm]
        · rfl
      · have hnone : p c = false := Bool.eq_false_iff.mpr fun h => hc (hp c h)
        obtain ⟨byte, more, henc⟩ :=
          List.exists_cons_of_ne_nil (String.utf8EncodeChar_ne_nil (c := c))
        have hbyte : isByteOf p byte = false := isByteOf_eq_false p hc byte (by simp [henc])
        rw [bytes_cons, henc, List.cons_append, List.takeWhile_cons, hbyte, List.takeWhile_cons,
          hnone]
        rfl

/-- An ASCII character is found by its byte where it is first. -/
theorem find?_eq {x : Char} (hx : x.val ≤ 127) (t : Text) :
    find? x t = if x ∈ t then some (byteSize (t.takeWhile (· != x))) else none := by
  induction t with
  | nil => rfl
  | cons c t ih =>
      rw [find?] at ih ⊢
      rw [bytes_cons, List.findIdx?_append, ih]
      by_cases hc : c = x
      · subst hc
        rw [utf8EncodeChar_of_le hx]
        simp [isByteOf_toUInt8 _ hx]
      · have hnone : (String.utf8EncodeChar c).findIdx? (fun byte => isByteOf (· == x) byte) =
            none := by
          rw [List.findIdx?_eq_none_iff]
          by_cases hascii : c.val ≤ 127
          · rw [utf8EncodeChar_of_le hascii]
            simpa [isByteOf_toUInt8 _ hascii] using hc
          · exact isByteOf_eq_false _ hascii
        have hmem : x ∈ c :: t ↔ x ∈ t := by simp [Ne.symm hc]
        have htake : (c :: t).takeWhile (· != x) = c :: t.takeWhile (· != x) :=
          List.takeWhile_cons_of_pos (bne_iff_ne.mpr hc)
        rw [hnone, Option.none_or, String.length_utf8EncodeChar, htake]
        simp only [hmem, byteSize_cons]
        split
        · rw [Option.map_some, Nat.add_comm]
        · rfl

/-- Looks for the end of the body of a string from a position on, byte by byte. It fails where
there is no byte to look at. -/
def bodyEnd? (bytes : List UInt8) : Nat → Nat → Option Nat
  | 0, _ => none
  | steps + 1, i =>
    if i < bytes.length then
      bytes[i]?.bind fun byte =>
        if byte = 39 then
          if bytes[i + 1]? = some 39 then bodyEnd? bytes steps (i + 2) else some i
        else bodyEnd? bytes steps (i + 1)
    else some i

/-- The search goes through the body byte by byte and never looks past the end. -/
theorem bodyEnd?_eq {bytes : List UInt8} {steps i : Nat} (hi : i ≤ bytes.length)
    (hsteps : bytes.length < steps + i) :
    bodyEnd? bytes steps i = some (i + bodySize (bytes.drop i)) := by
  induction steps generalizing i with
  | zero => omega
  | succ steps ih =>
      rw [bodyEnd?]
      split
      · next hlt =>
          have hhead : bytes[i + 1]? = (bytes.drop (i + 1)).head? := List.head?_drop.symm
          have hone : bodyEnd? bytes steps (i + 1) =
              some (i + 1 + bodySize (bytes.drop (i + 1))) := ih hlt (by omega)
          rw [List.getElem?_eq_getElem hlt, Option.bind_some, List.drop_eq_getElem_cons hlt, hhead]
          generalize bytes[i] = byte
          split
          · next hquote =>
              subst hquote
              cases hrest : bytes.drop (i + 1) with
              | nil => rfl
              | cons next rest =>
                  have hmore : i + 2 ≤ bytes.length := by
                    have hlength := congrArg List.length hrest
                    rw [List.length_drop, List.length_cons] at hlength
                    omega
                  have htwo := ih hmore (by omega)
                  have hdrop : bytes.drop (i + 2) = rest := by
                    rw [← List.tail_drop, hrest, List.tail_cons]
                  by_cases hnext : next = 39
                  · subst hnext
                    rw [List.head?_cons, if_pos rfl, htwo, hdrop, bodySize]
                    congr 1
                    omega
                  · rw [List.head?_cons, if_neg (by simpa using hnext), bodySize]
                    · rfl
                    · rintro rest ⟨⟩
                      exact hnext rfl
          · next hquote =>
              rw [hone, bodySize]
              · congr 1
                omega
              · exact fun _ h => absurd h hquote
              · exact hquote
      · next hlt =>
          rw [List.drop_eq_nil_of_le (Nat.not_lt.mp hlt)]
          rfl

end Scan

end QueryTree.Text
