import QueryTree.Proofs.Checked.Recognizer
import QueryTree.Proofs.Derivation.Reading
import QueryTree.Proofs.Nesting.Counter
import QueryTree.Proofs.Tree.Tiling

/-!
# Checks that never fail

A checked recognizer agrees with a recognizer if none of its checks fails, its outcome is the
same, and as many levels are open afterwards as before. What carries this from part to part is
that the nodes that are found cover the text from its front without gaps: the rest of a reading
is then always an end of the text, so a difference of sizes is a size, and a text can be cut
where a node ends. The open levels are counted by a number of the machine. A level begins with
a character, so the levels that are open and the bytes that are left are never more than the
bytes of the input.
-/

namespace QueryTree

open Node

namespace Node

/-- Whether the children of a node cover what it covers, and are linked to their neighbours
unless they have no links at all. -/
structure Sound (n : Node) : Prop where
  tiled : n.Tiled
  links : n.LinksNeighbours ∨ ∀ child ∈ n.children, child.IsUnlinked

theorem sound_leaf (c : Category) (w rest : Text) : (leaf c w rest).Sound where
  tiled h := absurd rfl h
  links := Or.inr fun _ h => nomatch h

theorem Tiles.byteSize_eq {t rest : Text} {ns : List Node} (h : Tiles t ns rest) :
    Text.byteSize t = Text.byteSize (ns.map spelling).flatten + Text.byteSize rest := by
  rw [← h.flatten_append, Text.byteSize_append]

/-- Whether nodes cover a text up to a rest, and are what may become parts of a production. -/
structure Spans (t : Text) (ns : List Node) (rest : Text) : Prop where
  tiles : Tiles t ns rest
  parts : ∀ n ∈ ns, n.IsUnlinked ∧ n.Everywhere Sound

namespace Spans

variable {t middle rest : Text} {ns ms : List Node}

theorem nil (t : Text) : Spans t [] t where
  tiles := rfl
  parts _ h := nomatch h

theorem append (h : Spans t ns middle) (h' : Spans middle ms rest) : Spans t (ns ++ ms) rest where
  tiles := h.tiles.append h'.tiles
  parts n hn := (List.mem_append.mp hn).elim (h.parts n) (h'.parts n)

theorem leaf (c : Category) (w rest : Text) : Spans (w ++ rest) [Node.leaf c w rest] rest where
  tiles := ⟨rfl, rfl⟩
  parts n hn := by
    obtain rfl := List.mem_singleton.mp hn
    exact ⟨⟨rfl, rfl⟩, everywhere_iff.mpr ⟨sound_leaf c w rest, fun _ hm => nomatch hm⟩⟩

/-- What is left of a text is not greater than the text. -/
theorem byteSize_le (h : Spans t ns rest) : Text.byteSize rest ≤ Text.byteSize t :=
  h.tiles.byteSize_eq ▸ Nat.le_add_left _ _

/-- What bounds the open levels and the bytes of a text bounds them with those that are left. -/
theorem fits (h : Spans t ns rest) {size depth : Nat} (ht : depth + Text.byteSize t ≤ size) :
    depth + Text.byteSize rest ≤ size :=
  Nat.le_trans (Nat.add_le_add_left h.byteSize_le depth) ht

theorem byteSize_singleton {n : Node} (h : Spans t [n] rest) :
    Text.byteSize t = Text.byteSize n.spelling + Text.byteSize rest := by
  have hsize := h.tiles.byteSize_eq
  rwa [List.map_singleton, List.flatten_singleton] at hsize

/-- A node over its children, linked to their neighbours or not at all. -/
theorem branch {c : Category} (htiles : Tiles t ns rest)
    (hlinks : (branch c ns rest).LinksNeighbours ∨ ∀ n ∈ ns, n.IsUnlinked)
    (hbelow : ∀ n ∈ ns, n.Everywhere Sound) : Spans t [Node.branch c ns rest] rest := by
  have hcover : (ns.map spelling).flatten ++ rest = t := htiles.flatten_append
  have htiled : (Node.branch c ns rest).Tiled := fun _ => hcover.symm ▸ htiles
  refine ⟨⟨hcover, rfl⟩, fun n hn => ?_⟩
  obtain rfl := List.mem_singleton.mp hn
  exact ⟨⟨rfl, rfl⟩, everywhere_iff.mpr ⟨⟨htiled, hlinks⟩, hbelow⟩⟩

/-- A node over parts that are linked to their neighbours. -/
theorem chain (h : Spans t ns rest) (c : Category) :
    Spans t [Node.branch c (Node.chain ns) rest] rest := by
  refine branch (tiles_chain.mpr h.tiles) (Or.inl (linksNeighbours_branch c ns rest)) fun m hm => ?_
  obtain ⟨k, hk, p, q, rfl⟩ := mem_chain hm
  exact (h.parts k hk).2.linked p q fun hk => ⟨hk.tiled, hk.links⟩

/-- A node over parts without links. -/
theorem unlinked (h : Spans t ns rest) (c : Category) : Spans t [Node.branch c ns rest] rest :=
  branch h.tiles (Or.inr fun n hn => (h.parts n hn).1) fun n hn => (h.parts n hn).2

end Spans

end Node

namespace Checked

section Building

variable {t rest : Text} {ns : List Node}

/-- The part that waits for its link is always there. -/
theorem foldlM_link? (g : Growth) (h : ∀ i ∈ g.tail, i < g.parts.length) :
    ns.foldlM link? g = some (ns.foldl Growth.link g) := by
  induction ns generalizing g with
  | nil => rfl
  | cons n ns ih =>
      have hlink : link? g n = some (g.link n) := by
        unfold link?
        split
        · rfl
        · next i htail => exact if_pos (h i htail)
      have hlength : (g.link n).parts.length = g.parts.length + 1 := by
        unfold Growth.link
        split <;> simp
      have htail : ∀ i ∈ (g.link n).tail, i < (g.link n).parts.length := by
        rintro i ⟨⟩
        rw [hlength]
        exact Nat.lt_succ_self _
      calc (n :: ns).foldlM link? g
        _ = ns.foldlM link? (g.link n) := by rw [List.foldlM_cons, hlink]; rfl
        _ = some (ns.foldl Growth.link (g.link n)) := ih (g.link n) htail

theorem linkEach?_eq (h : ∀ n ∈ ns, n.IsUnlinked) : linkEach? ns = some (chain ns) := by
  rw [linkEach?, foldlM_link? Growth.empty nofun, Option.map_some, ← linkEach_eq_chain h]
  rfl

/-- A production ends where the reading of its parts does. -/
theorem restAfter_eq (h : Tiles t ns rest) : restAfter t ns = rest := by
  induction ns generalizing t with
  | nil => exact h
  | cons n ns ih => exact ih h.2

/-- The text of a node ends where the rest begins, which is at the end of the input. -/
theorem composite?_eq (h : Tiles t ns rest) (c : Category) :
    composite? c t rest ns = some (branch c ns rest) := by
  have hcover := h.flatten_append
  have hsize := h.byteSize_eq
  have hconsumed : sub? (Text.byteSize t) (Text.byteSize rest) =
      some (Text.byteSize (ns.map spelling).flatten) := by
    rw [sub?_eq_some (hsize ▸ Nat.le_add_left _ _), hsize, Nat.add_sub_cancel]
  have hcut : Text.cut? t (Text.byteSize (ns.map spelling).flatten) =
      some ((ns.map spelling).flatten, rest) := by
    rw [← hcover]
    exact Text.cut?_append _ rest
  rw [composite?, hconsumed, Option.bind_some, hcut]
  rfl

end Building

/-- Whether a checked reading gives an outcome and leaves as many levels open as there were,
where a value that is found is as it should be. -/
inductive Answers {α : Type} (Q : α → Text → Prop) (depth : Nat) :
    Option (Reading α × Nat) → Reading α → Prop where
  | found {a : α} {rest : Text} (h : Q a rest) :
      Answers Q depth (some (.found a rest, depth)) (.found a rest)
  | absent : Answers Q depth (some (.absent, depth)) .absent
  | broken (fault : Fault) : Answers Q depth (some (.broken fault, depth)) (.broken fault)

namespace Answers

variable {α β : Type} {Q R : α → Text → Prop} {depth : Nat} {t rest : Text}
variable {outcome : Option (Reading α × Nat)} {x : Reading α}

theorem eq (h : Answers Q depth outcome x) : outcome = some (x, depth) := by
  cases h <;> rfl

theorem found_holds (h : Answers Q depth outcome x) {a : α} (hx : x = .found a rest) :
    Q a rest := by
  subst hx
  cases h with
  | found h => exact h

theorem mono (h : Answers Q depth outcome x)
    (himp : ∀ a rest, x = .found a rest → Q a rest → R a rest) : Answers R depth outcome x := by
  cases h with
  | found h => exact .found (himp _ _ rfl h)
  | absent => exact .absent
  | broken fault => exact .broken fault

theorem of_eq (h : outcome = some (x, depth)) (hfound : ∀ a rest, x = .found a rest → Q a rest) :
    Answers Q depth outcome x := by
  subst h
  cases x with
  | found a rest => exact .found (hfound a rest rfl)
  | absent => exact .absent
  | broken fault => exact .broken fault

theorem bind {S : β → Text → Prop} {k : Checked α} {next : α → Checked β}
    {next' : α → Recognizer β} (h : Answers Q depth (k t depth) x)
    (hnext : ∀ a rest, x = .found a rest → Q a rest →
      Answers S depth (next a rest depth) (next' a rest)) :
    Answers S depth (k.bind next t depth) (x.bind next') := by
  unfold Checked.bind
  generalize k t depth = outcome at h
  cases h with
  | @found a rest h => exact hnext a rest rfl h
  | absent => exact .absent
  | broken fault => exact .broken fault

theorem map {S : β → Text → Prop} {k : Checked α} {f : α → β}
    (h : Answers Q depth (k t depth) x) (hf : ∀ a rest, Q a rest → S (f a) rest) :
    Answers S depth (k.map f t depth) (x.map f) :=
  h.bind fun a rest _ ha => .found (hf a rest ha)

theorem orElse {k l : Checked α} {r s : Recognizer α} (h : Answers Q depth (k t depth) (r t))
    (h' : Answers Q depth (l t depth) (s t)) :
    Answers Q depth (k.orElse l t depth) (r.orElse s t) := by
  unfold Checked.orElse Recognizer.orElse
  generalize k t depth = outcome, r t = x at h
  cases h with
  | found h => exact .found h
  | absent => exact h'
  | broken fault => exact .broken fault

theorem orFault {k : Checked α} {r : Recognizer α} (h : Answers Q depth (k t depth) (r t))
    (fault : Text → Fault) : Answers Q depth (k.orFault fault t depth) (r.orFault fault t) :=
  h.orElse (.broken (fault t))

theorem orFaultUnder {k : Checked α} {r : Recognizer α} (h : Answers Q depth (k t depth) (r t))
    (demand : Demand) (fault : Text → Fault) :
    Answers Q depth (k.orFaultUnder demand fault t depth) (r.orFaultUnder demand fault t) := by
  cases demand with
  | optional => exact h
  | mandatory => exact h.orFault fault

theorem filter {k : Checked Node} {r : Recognizer Node} {Q : Node → Text → Prop}
    (h : Answers Q depth (k t depth) (r t)) (keep : Node → Text → Bool) :
    Answers Q depth (k.filter keep t depth)
      ((r t).bind fun n rest => if keep n rest then .found n rest else .absent) := by
  refine h.bind fun n rest _ hn => ?_
  change Answers Q depth (some (if keep n rest then .found n rest else .absent, depth)) _
  split
  · exact .found hn
  · exact .absent

theorem optional {k : Checked (List Node)} {r : Recognizer (List Node)}
    (h : Answers (Spans t) depth (k t depth) (r t)) :
    Answers (Spans t) depth (k.optional t depth) (Recognizer.optional r t) :=
  h.orElse (.found (.nil t))

/-- A production is put together from its parts without an error. -/
theorem node {k : Checked (List Node)} {r : Recognizer (List Node)}
    (h : Answers (Spans t) depth (k t depth) (r t)) (c : Category) :
    Answers (fun n => Spans t [n]) depth (Checked.node c k t depth) (Recognizer.node c r t) := by
  refine h.bind fun ns rest _ hns => ?_
  have hcomposite : composite? c t rest (chain ns) = some (branch c (chain ns) rest) :=
    composite?_eq (tiles_chain.mpr hns.tiles) c
  rw [linkEach?_eq fun n hn => (hns.parts n hn).1, Option.bind_some, restAfter_eq hns.tiles,
    hcomposite, Option.map_some]
  exact .found (hns.chain c)

/-- A text can be cut where a leaf ends. -/
theorem leaf {scan : Text → Option Nat} {w : Text}
    (hscan : scan (w ++ rest) = some (Text.byteSize w)) (c : Category) :
    Answers (fun n => Spans (w ++ rest) [n]) depth (Checked.leaf c scan (w ++ rest) depth)
      (.found (Node.leaf c w rest) rest) := by
  have hcut : Text.cut? (w ++ rest) (Text.byteSize w) = some (w, rest) := Text.cut?_append w rest
  have hleaf : Checked.leaf c scan (w ++ rest) depth =
      some (.found (Node.leaf c w rest) rest, depth) := by
    unfold Checked.leaf
    simp only [hscan, hcut, Option.map_some]
  rw [hleaf]
  exact .found (.leaf c w rest)

theorem leaf_absent {scan : Text → Option Nat} {Q : Node → Text → Prop} (hscan : scan t = none)
    (c : Category) : Answers Q depth (Checked.leaf c scan t depth) .absent := by
  have hleaf : Checked.leaf c scan t depth = some (.absent, depth) := by
    unfold Checked.leaf
    rw [hscan]
  rw [hleaf]
  exact .absent

section Levels

variable {limit : Nat} {k : Checked α}

/-- Below the limit a level is opened, and closed again however the reading ends. -/
theorem entered (hdepth : depth < limit) (hword : depth + 1 < wordLimit)
    (h : Answers Q (depth + 1) (k t (depth + 1)) x) (start : Text) :
    Answers Q depth (Checked.entered limit start k t depth) x := by
  have hset : set? limit (depth + 1) = some (depth + 1) := if_pos hdepth
  have hclose : sub? (depth + 1) 1 = some depth := sub?_eq_some (Nat.le_add_left 1 depth)
  refine of_eq ?_ fun a rest => h.found_holds
  rw [Checked.entered, add?_eq_some hword, Option.bind_some, if_neg (Nat.not_lt.mpr hdepth), hset,
    Option.bind_some, h.eq, Option.bind_some, hclose, Option.map_some]

/-- At the limit no level is opened. -/
theorem entered_refused (hdepth : limit ≤ depth) (hword : depth + 1 < wordLimit) (start : Text)
    (k : Checked α) :
    Answers Q depth (Checked.entered limit start k t depth) (.broken (.tooDeep start)) := by
  refine of_eq ?_ nofun
  rw [Checked.entered, add?_eq_some hword, Option.bind_some, if_pos (Nat.lt_succ_of_le hdepth)]

end Levels

end Answers

/-- Whether a checked recognizer of nodes answers as a recognizer does, at every text whose bytes
together with the open levels are not more than `size`. -/
def Agrees (size depth : Nat) (k : Checked Node) (r : Recognizer Node) : Prop :=
  ∀ t, depth + Text.byteSize t ≤ size → Answers (fun n => Spans t [n]) depth (k t depth) (r t)

/-- Whether a checked recognizer of the parts of a production answers as a recognizer does. -/
def AgreesAll (size depth : Nat) (k : Checked (List Node)) (r : Recognizer (List Node)) : Prop :=
  ∀ t, depth + Text.byteSize t ≤ size → Answers (Spans t) depth (k t depth) (r t)

section Nodes

variable {size depth : Nat} {k l : Checked Node} {r s : Recognizer Node}

namespace Agrees

theorem orElse (h : Agrees size depth k r) (h' : Agrees size depth l s) :
    Agrees size depth (k.orElse l) (r.orElse s) :=
  fun t ht => (h t ht).orElse (h' t ht)

theorem orFault (h : Agrees size depth k r) (fault : Text → Fault) :
    Agrees size depth (k.orFault fault) (r.orFault fault) :=
  fun t ht => (h t ht).orFault fault

theorem required (h : Agrees size depth k r) (c : Category) :
    Agrees size depth (k.required c) (r.required c) :=
  h.orFault (Fault.expected c)

theorem under (h : Agrees size depth k r) (demand : Demand) (c : Category) :
    Agrees size depth (k.under demand c) (r.under demand c) :=
  fun t ht => (h t ht).orFaultUnder demand (Fault.expected c)

theorem filter (h : Agrees size depth k r) (keep : Node → Text → Bool) :
    Agrees size depth (k.filter keep) fun t =>
      (r t).bind fun n rest => if keep n rest then .found n rest else .absent :=
  fun t ht => (h t ht).filter keep

theorem one (h : Agrees size depth k r) : AgreesAll size depth k.one r.one :=
  fun t ht => (h t ht).map fun _ _ hn => hn

theorem andThen {parts : Node → Checked (List Node)} {parts' : Node → Recognizer (List Node)}
    (h : Agrees size depth k r) (hparts : ∀ n, AgreesAll size depth (parts n) (parts' n)) :
    AgreesAll size depth (k.andThen parts) (r.andThen parts') := by
  refine fun t ht => (h t ht).bind fun n rest _ hn => ?_
  exact (hparts n rest (hn.fits ht)).map fun _ _ hns => hn.append hns

theorem wrap (h : Agrees size depth k r) (c : Category) :
    Agrees size depth (Checked.wrap c k) (Recognizer.wrap c r) :=
  fun t ht => (h.one t ht).node c

/-- What is found begins with the text of a leaf, up to where the scan ends. -/
theorem leaf {scan : Text → Option Nat} {c : Category}
    (h : ∀ t, scan t = none ∧ r t = .absent ∨ ∃ w rest, t = w ++ rest ∧
      scan t = some (Text.byteSize w) ∧ r t = .found (Node.leaf c w rest) rest) :
    Agrees size depth (Checked.leaf c scan) r := by
  intro t _
  rcases h t with ⟨hscan, hr⟩ | ⟨w, rest, rfl, hscan, hr⟩
  · rw [hr]
    exact .leaf_absent hscan c
  · rw [hr]
    exact .leaf hscan c

/-- A production whose level is opened after its first part agrees if it is refused exactly
where no level is left. The first part takes up a byte, so the counter can be raised. -/
theorem level {limit room : Nat} {opening : Checked Node} {opening' whole : Recognizer Node}
    {parts : Node → Checked (List Node)} {c : Category} {t : Text}
    (ht : depth + Text.byteSize t ≤ size) (hword : size < wordLimit)
    (hroom : depth + room = limit) (hopening : Agrees size depth opening opening')
    (hbegins : opening'.FindsOnly fun n => n.spelling ≠ [])
    (hrefused : room = 0 → whole t = Recognizer.refused opening' t)
    (hread : ∀ m, room = m + 1 → ∃ parts' : Node → Recognizer (List Node),
      (∀ n, AgreesAll size (depth + 1) (parts n) (parts' n)) ∧
        whole t = Recognizer.node c (opening'.andThen parts') t) :
    Answers (fun n => Spans t [n]) depth
      (Checked.node c (opening.andThen fun n => Checked.entered limit t (parts n)) t depth)
      (whole t) := by
  have hopened : Answers (fun n rest => Spans t [n] rest ∧ depth + 1 + Text.byteSize rest ≤ size)
      depth (opening t depth) (opening' t) := by
    refine (hopening t ht).mono fun n rest hn hspans => ⟨hspans, ?_⟩
    have hpos : 0 < Text.byteSize n.spelling := Text.byteSize_pos (hbegins t n rest hn)
    have hsize := hspans.byteSize_singleton
    omega
  cases room with
  | zero =>
      have hlimit : limit ≤ depth := Nat.le_of_eq hroom.symm
      rw [hrefused rfl, ← Counted.Keeps.node_refused c]
      refine Answers.node (hopened.bind fun n rest _ hn => ?_) c
      have hone : depth + 1 < wordLimit := by omega
      exact (Answers.entered_refused hlimit hone t (parts n)).map fun _ _ hns => hn.1.append hns
  | succ m =>
      have hdepth : depth < limit := by omega
      obtain ⟨parts', hparts, hwhole⟩ := hread m rfl
      rw [hwhole]
      refine Answers.node (hopened.bind fun n rest _ hn => ?_) c
      have hone : depth + 1 < wordLimit := by omega
      exact (Answers.entered hdepth hone (hparts n rest hn.2) t).map fun _ _ hns => hn.1.append hns

end Agrees

end Nodes

namespace AgreesAll

variable {size depth : Nat} {k l : Checked (List Node)} {r s : Recognizer (List Node)}

theorem orElse (h : AgreesAll size depth k r) (h' : AgreesAll size depth l s) :
    AgreesAll size depth (k.orElse l) (r.orElse s) :=
  fun t ht => (h t ht).orElse (h' t ht)

theorem under (h : AgreesAll size depth k r) (demand : Demand) (c : Category) :
    AgreesAll size depth (k.under demand c) (r.under demand c) :=
  fun t ht => (h t ht).orFaultUnder demand (Fault.expected c)

theorem optional (h : AgreesAll size depth k r) :
    AgreesAll size depth k.optional (Recognizer.optional r) :=
  fun t ht => (h t ht).optional

theorem seq (h : AgreesAll size depth k r) (h' : AgreesAll size depth l s) :
    AgreesAll size depth (k.seq l) (r.seq s) := by
  refine fun t ht => (h t ht).bind fun ns rest _ hns => ?_
  exact (h' rest (hns.fits ht)).map fun _ _ hms => hns.append hms

theorem node (h : AgreesAll size depth k r) (c : Category) :
    Agrees size depth (Checked.node c k) (Recognizer.node c r) :=
  fun t ht => (h t ht).node c

/-- A repetition agrees if its rounds do, as long as what is remembered from round to round
matches. -/
theorem repeated {σ τ : Type} {step : σ → Checked (List Node)} {next? : σ → Node → Option σ}
    {step' : τ → Recognizer (List Node)} {next : τ → Node → τ} (Matches : σ → τ → Text → Prop)
    (hstep : ∀ a b t, depth + Text.byteSize t ≤ size → Matches a b t →
      Answers (fun ns rest => Spans t ns rest ∧
        ∃ a', ns.foldlM next? a = some a' ∧ Matches a' (ns.foldl next b) rest)
        depth (step a t depth) (step' b t))
    {t : Text} (ht : depth + Text.byteSize t ≤ size) {a : σ} {b : τ} (hab : Matches a b t) :
    Answers (Spans t) depth (Checked.repeated step next? a t depth)
      (Recognizer.repeated step' next b t) := by
  have hrounds : ∀ bound a b t, depth + Text.byteSize t ≤ size → Matches a b t →
      Answers (Spans t) depth (repeatUpTo step next? bound a t depth)
        (Recognizer.repeatUpTo step' next bound b t) := by
    intro bound
    induction bound with
    | zero => exact fun _ _ t _ _ => .found (.nil t)
    | succ bound ih =>
        intro a b t ht hab
        have hround := hstep a b t ht hab
        unfold repeatUpTo Recognizer.repeatUpTo
        generalize step a t depth = outcome, step' b t = x at hround
        cases hround with
        | @found ns rest h =>
            obtain ⟨hns, a', hnext, hmatch⟩ := h
            simp only [Option.bind_some, hnext]
            exact (ih a' _ rest (hns.fits ht) hmatch).map fun _ _ hms => hns.append hms
        | absent => exact .found (.nil t)
        | broken fault => exact .broken fault
  exact hrounds t.length a b t ht hab

/-- A repetition that remembers nothing. -/
theorem many (h : AgreesAll size depth k r) : AgreesAll size depth k.many r.many := by
  refine fun t ht => repeated (fun _ _ _ => True) (fun _ _ t ht _ => ?_) ht trivial
  refine (h t ht).mono fun ns rest _ hns => ⟨hns, (), ?_, trivial⟩
  exact List.foldlM_pure

end AgreesAll

end Checked

end QueryTree
