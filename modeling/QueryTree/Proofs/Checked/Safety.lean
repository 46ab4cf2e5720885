import QueryTree.Proofs.Checked.Grammar
import QueryTree.Proofs.Marks.Scan
import QueryTree.Proofs.Nesting.Reader

/-!
# No check fails

Whatever a production is given to read, under any limit on the depth of nesting, none of its
checks fails: all positions are those of characters, all differences are sizes, and the counters
stay within their bounds. What has been read can be walked and shown without an error, too.
-/

namespace QueryTree

open Node

namespace Checked

section Links

variable {parts ns : List Node} {n : Node} {i : Nat}

/-- The way that the links lead is followed to its end without leaving the parts. -/
theorem follow?_eq (h : Leads parts i ns) {steps : Nat} (hsteps : ns.length ≤ steps) :
    follow? parts steps i = some ns := by
  induction h generalizing steps with
  | last h hnext =>
      obtain ⟨steps, rfl⟩ := Nat.exists_eq_add_of_le' hsteps
      simp only [List.length_singleton, follow?, h, Option.bind_some, hnext]
  | step h hnext _ ih =>
      obtain ⟨steps, rfl⟩ :=
        Nat.exists_eq_add_of_le' (Nat.lt_of_lt_of_le (Nat.zero_lt_succ _) hsteps)
      simp only [follow?, h, Option.bind_some, hnext, ih (Nat.le_of_succ_le_succ hsteps),
        Option.map_some]

/-- The parts of a production can be followed from any position, be there a child or not. -/
theorem sequence?_eq (h : n.Sound) (i : Nat) : sequence? n i = some (n.sequence i) := by
  rcases Nat.lt_or_ge i n.children.length with hi | hi
  · have hlead : ∃ ns, Leads n.children i ns ∧ ns.length ≤ n.children.length := by
      rcases h.links with hlinks | hunlinked
      · exact ⟨_, hlinks.leads hi, by simp⟩
      · have hlead := (Unordered.of_unlinked hunlinked).leads i _ (List.getElem?_eq_getElem hi)
        exact ⟨_, hlead, Nat.lt_of_le_of_lt (Nat.zero_le i) hi⟩
    obtain ⟨ns, hns, hlength⟩ := hlead
    rw [sequence?, if_pos hi, Node.sequence, hns.follow_eq hlength, follow?_eq hns hlength]
  · have hnone : follow n.children n.children.length i = [] := by
      unfold follow
      split
      · rfl
      · rw [List.getElem?_eq_none hi]
    rw [sequence?, if_neg (Nat.not_lt.mpr hi), Node.sequence, hnone]

end Links

section Messages

/-- The position at which a character of a text begins, counted from zero. -/
def charIndex? : Text → Nat → Option Nat
  | [], _ => none
  | _ :: _, 0 => some 0
  | c :: t, i + 1 => (charIndex? t i).map fun k => c.utf8Size + k

/-- The text that was found, cut where the first character begins that is not shown. -/
def preview? (found : Text) : Option Text :=
  if found.isEmpty then some "end of input".toList
  else
    match charIndex? found ParseError.previewLength with
    | none => some ("'".toList ++ found ++ "'".toList)
    | some i => (Text.cut? found i).map fun parts => "'".toList ++ parts.1 ++ "...'".toList

theorem charIndex?_eq (t : Text) (i : Nat) :
    charIndex? t i = if i < t.length then some (Text.byteSize (t.take i)) else none := by
  induction t generalizing i with
  | nil => rfl
  | cons c t ih =>
      cases i with
      | zero => rfl
      | succ i =>
          rw [charIndex?, ih, List.length_cons, List.take_succ_cons]
          simp only [Nat.succ_lt_succ_iff]
          split <;> rfl

/-- To show what was found cuts no character. -/
theorem preview?_eq (found : Text) : preview? found = some (ParseError.preview found) := by
  have hcut : Text.cut? found (Text.byteSize (found.take ParseError.previewLength)) =
      some (found.take ParseError.previewLength, found.drop ParseError.previewLength) := by
    calc Text.cut? found (Text.byteSize (found.take ParseError.previewLength))
      _ = Text.cut? (found.take ParseError.previewLength ++ found.drop ParseError.previewLength)
            (Text.byteSize (found.take ParseError.previewLength)) := by rw [List.take_append_drop]
      _ = some (found.take ParseError.previewLength, found.drop ParseError.previewLength) :=
        Text.cut?_append _ _
  unfold preview? ParseError.preview
  split
  · rfl
  · rw [charIndex?_eq]
    rcases Nat.lt_or_ge ParseError.previewLength found.length with hlong | hshort
    · rw [if_pos hlong, if_neg (Nat.not_le.mpr hlong)]
      simp only [hcut, Option.map_some]
    · rw [if_neg (Nat.not_lt.mpr hshort), if_pos hshort]

/-- The offset of an error is a number of the machine. -/
theorem offset_lt {limit room : Nat} {input : Text} {fault : Fault}
    (h : fault.PointsInto room input) (hinput : Text.byteSize input < wordLimit) {size : Nat}
    (hsize : size < wordLimit) : (fault.locate limit size).offset < wordLimit := by
  have hstart : ∀ u : Text, (Place.start u).offset size < wordLimit := fun u =>
    Nat.lt_of_le_of_lt (Nat.sub_le size (Text.byteSize u)) hsize
  cases fault with
  | expected c found => exact hstart found
  | trailing found => exact hstart found
  | tooDeep place => exact hstart place
  | unterminated c delimiter place =>
      cases place with
      | start u => exact hstart u
      | finish u =>
          obtain ⟨before, rfl⟩ : u <:+ input := h.1
          rw [Text.byteSize_append] at hinput
          change size - Text.byteSize u + Text.byteSize u < wordLimit
          omega

end Messages

section Readings

/-- A node begins and ends where characters of the source do. -/
theorem isBoundary_of_suffix {source : Text} {n : Node}
    (h : n.spelling ++ n.following <:+ source) :
    Text.IsBoundary source (n.start source) ∧
      Text.IsBoundary source (n.start source + Text.byteSize n.spelling) := by
  obtain ⟨before, rfl⟩ := h
  have hstart : n.start (before ++ (n.spelling ++ n.following)) = Text.byteSize before := by
    rw [Node.start, Text.byteSize_append, Nat.add_sub_cancel]
  rw [hstart]
  constructor
  · exact Text.isBoundary_iff.mpr ⟨before, _, rfl, rfl⟩
  · refine Text.isBoundary_iff.mpr ⟨before ++ n.spelling, n.following, ?_, ?_⟩
    · rw [List.append_assoc]
    · rw [Text.byteSize_append]

/-- No production fails a check, at any text and under any limit. The outcome is the one that is
read without checks and no level is left open. What is left behind a node that is found is the
end of the text, every node of its tree begins and ends where characters of the text do, and the
parts of each can be followed from any position. Where a fault is found, its offset is a number
of the machine, and whatever text was found can be shown. -/
theorem reading_passes_checks (limit : Nat) (demand : Demand) (p : Production) {input : Text}
    (h : Text.byteSize input < wordLimit) :
    ofProduction limit demand p input 0 = some (p.recognizer limit demand input, 0) ∧
      (∀ n rest, p.recognizer limit demand input = .found n rest →
        rest <:+ input ∧ ∀ m ∈ n.preorder,
          Text.IsBoundary input (m.start input) ∧
            Text.IsBoundary input (m.start input + Text.byteSize m.spelling) ∧
            ∀ i, sequence? m i = some (m.sequence i)) ∧
      (∀ fault, p.recognizer limit demand input = .broken fault →
        ∀ size < wordLimit, (fault.locate limit size).offset < wordLimit) ∧
      ∀ found, preview? found = some (ParseError.preview found) := by
  have hinput : 0 + Text.byteSize input ≤ Text.byteSize input := Nat.le_of_eq (Nat.zero_add _)
  have hanswers := ofProduction_agrees h limit demand p input hinput
  refine ⟨hanswers.eq, fun n rest hn => ?_, fun fault hfault size hsize => ?_, preview?_eq⟩
  · have hspans := hanswers.found_holds hn
    have hcover : n.spelling ++ n.following = input := hspans.tiles.1
    have hrest : n.following = rest := hspans.tiles.2
    have hsound : n.Everywhere Sound := (hspans.parts n (List.mem_singleton_self n)).2
    have htiled : n.Everywhere Tiled := hsound.mono fun m hm => hm.tiled
    refine ⟨⟨n.spelling, hrest ▸ hcover⟩, fun m hm => ?_⟩
    obtain ⟨hstart, hfinish⟩ := isBoundary_of_suffix (hcover ▸ htiled.suffix_of_mem hm)
    exact ⟨hstart, hfinish, sequence?_eq (hsound m hm)⟩
  · have hplaced := p.recognizer_places limit demand input
    rw [hfault] at hplaced
    cases hplaced with
    | broken hpoints => exact offset_lt hpoints h hsize

/-- A string with a character of two bytes in it, which is not cut. -/
theorem reading_passes_checks_string :
    Text.byteSize "'é'".toList < wordLimit ∧ ¬Text.IsBoundary "'é'".toList 2 ∧
      ∃ n, ofProduction 64 .mandatory .string "'é'".toList 0 = some (.found n [], 0) ∧
        ∀ m ∈ n.preorder, Text.IsBoundary "'é'".toList (m.start "'é'".toList) := by
  have hsize : Text.byteSize "'é'".toList < wordLimit := by decide
  have hinside : ¬Text.IsBoundary "'é'".toList 2 := by
    rw [← Text.isSome_cut?_iff]
    decide
  have hread : Production.string.recognizer 64 .mandatory "'é'".toList =
      .found (Grammar.quotation ['é'] []) [] := by
    decide +kernel
  obtain ⟨hchecked, hfound, _⟩ := reading_passes_checks 64 .mandatory .string hsize
  rw [hread] at hchecked
  exact ⟨hsize, hinside, _, hchecked, fun m hm => ((hfound _ _ hread).2 m hm).1⟩

end Readings

end Checked

end QueryTree
