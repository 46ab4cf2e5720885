import QueryTree.Node.Outline
import QueryTree.Proofs.Edit.Session

/-!
# What an outline tells

The outline of a tree can be read without the tree. Its objects stand where the nodes
stand, each with the category and the current text of its node and with a mark if the node
has been overwritten. So the text of the tree is in its outline more than once: it is the
text of the outermost object, and it is what the objects spell together at which a reader
stops who goes down from the outermost one, because they are marked or have no children.
-/

namespace QueryTree

namespace JsonValue

/-- The value of a member of an object. -/
def member? (key : String) : JsonValue → Option JsonValue
  | object members => members.lookup key.toList
  | _ => none

/-- The names of the members of an object, in their order. -/
def keys : JsonValue → List Text
  | object members => members.map Prod.fst
  | _ => []

/-- The objects listed as the children of an object. -/
def children (v : JsonValue) : List JsonValue :=
  match v.member? "children" with
  | some (array items) => items
  | _ => []

/-- The text told of an object. -/
def text (v : JsonValue) : Text :=
  match v.member? "text" with
  | some (string t) => t
  | _ => []

/-- Whether an object is marked as overwritten. -/
def isMarked (v : JsonValue) : Bool :=
  match v.member? "rewritten" with
  | some (boolean marked) => marked
  | _ => false

/-- The object at a path. -/
def at? : Path → JsonValue → Option JsonValue
  | [], v => some v
  | i :: path, v => v.children[i]?.bind (at? path)

theorem sizeOf_lookup_lt {key : Text} {members : List (Text × JsonValue)} {v : JsonValue}
    (h : members.lookup key = some v) : sizeOf v < sizeOf members := by
  induction members with
  | nil => cases h
  | cons member members ih =>
      obtain ⟨k, u⟩ := member
      rw [List.lookup_cons] at h
      simp only [List.cons.sizeOf_spec, Prod.mk.sizeOf_spec]
      split at h
      · obtain rfl := Option.some.inj h
        omega
      · have := ih h
        omega

theorem sizeOf_children_lt {v u : JsonValue} (h : u ∈ v.children) : sizeOf u < sizeOf v := by
  unfold children at h
  split at h
  next items hitems =>
    have hu := List.sizeOf_lt_of_mem h
    cases v with
    | object members =>
        have hlookup := sizeOf_lookup_lt (v := array items) hitems
        simp only [array.sizeOf_spec, object.sizeOf_spec] at hlookup ⊢
        omega
    | _ => cases hitems
  next => cases h

/-- The objects in document order at which a reader stops who goes down to the children
wherever there are some and nothing has been written over them. -/
def stops (v : JsonValue) : List JsonValue :=
  if v.isMarked || v.children.isEmpty then [v]
  else v.children.attach.flatMap fun u => stops u.1
termination_by sizeOf v
decreasing_by
  exact sizeOf_children_lt u.2

theorem stops_eq (v : JsonValue) :
    v.stops = if v.isMarked || v.children.isEmpty then [v] else v.children.flatMap stops := by
  rw [stops]
  congr 1
  simp

end JsonValue

namespace Node

open JsonValue

/-- Whether an object tells of a node what it should: the category and the current text, a
mark exactly if the node has been overwritten, as many children as the node has, and
nothing else. -/
structure Depicts (n : Node) (v : JsonValue) : Prop where
  category : v.member? "category" = some (.string n.category.name.toList)
  text : v.member? "text" = some (.string n.text)
  rewritten : v.member? "rewritten" = if n.isOverwritten then some (.boolean true) else none
  leaf : n.children = [] → v.member? "children" = none
  inner : n.children ≠ [] →
    ∃ items, v.member? "children" = some (.array items) ∧ items.length = n.children.length
  keys : v.keys.Sublist
    ["category".toList, "children".toList, "rewritten".toList, "text".toList]

variable {n root : Node}

theorem outlineAll_eq_map (ns : List Node) : outlineAll ns = ns.map outline := by
  induction ns with
  | nil => rfl
  | cons n ns ih => rw [outlineAll, ih, List.map_cons]

theorem outline_eq (n : Node) : n.outline =
    .object (("category".toList, .string n.category.name.toList) ::
      (if n.children.isEmpty then []
        else [("children".toList, .array (n.children.map outline))]) ++
      (if n.isOverwritten then [("rewritten".toList, .boolean true)] else []) ++
      [("text".toList, .string n.text)]) := by
  obtain ⟨_, _, _, _, _, _, _⟩ := n
  rw [outline, outlineAll_eq_map]
  rfl

theorem member?_children_outline (n : Node) : n.outline.member? "children" =
    if n.children.isEmpty then none else some (.array (n.children.map outline)) := by
  rw [outline_eq]
  cases n.children.isEmpty <;> cases n.isOverwritten <;> rfl

@[simp] theorem children_outline (n : Node) : n.outline.children = n.children.map outline := by
  rw [JsonValue.children, member?_children_outline]
  cases n.children <;> rfl

@[simp] theorem text_outline (n : Node) : n.outline.text = n.text := by
  rw [JsonValue.text, outline_eq]
  cases n.children.isEmpty <;> cases n.isOverwritten <;> rfl

@[simp] theorem isMarked_outline (n : Node) : n.outline.isMarked = n.isOverwritten := by
  rw [isMarked, outline_eq]
  cases n.children.isEmpty <;> cases n.isOverwritten <;> rfl

theorem keys_outline (n : Node) : n.outline.keys =
    "category".toList :: (if n.children.isEmpty then [] else ["children".toList]) ++
      (if n.isOverwritten then ["rewritten".toList] else []) ++ ["text".toList] := by
  rw [outline_eq]
  cases n.children.isEmpty <;> cases n.isOverwritten <;> rfl

/-- The outline of a node depicts the node. -/
theorem depicts_outline (n : Node) : n.Depicts n.outline where
  category := by rw [outline_eq]; rfl
  text := by
    rw [outline_eq]
    cases n.children.isEmpty <;> cases n.isOverwritten <;> rfl
  rewritten := by
    rw [outline_eq]
    cases n.children.isEmpty <;> cases n.isOverwritten <;> rfl
  leaf h := by rw [member?_children_outline, h]; rfl
  inner h := by
    rw [member?_children_outline, if_neg (by simp [h])]
    exact ⟨_, rfl, List.length_map outline⟩
  keys := by
    rw [keys_outline]
    cases n.children.isEmpty <;> cases n.isOverwritten <;> decide

/-- The objects of an outline are the outlines of the nodes. -/
theorem at?_outline (path : Path) (n : Node) :
    n.outline.at? path = (n.at? path).map outline := by
  induction path generalizing n with
  | nil => rfl
  | cons i path ih =>
      rw [JsonValue.at?, children_outline, at?_cons, List.getElem?_map]
      cases n.children[i]? with
      | none => rfl
      | some k => exact ih k

/-- At the stops of an outline the reader finds what the tree folds to. -/
theorem flatten_stops_outline (h : n.Everywhere Tiled) :
    (n.outline.stops.map JsonValue.text).flatten = n.text := by
  induction n using induction_children with
  | step n ih =>
      rw [stops_eq, isMarked_outline, children_outline]
      split
      next => simp
      next hgo =>
        obtain ⟨hunwritten, hinner⟩ : n.replacement = none ∧ n.children ≠ [] := by
          simpa [isOverwritten] using hgo
        have hparts : ∀ m ∈ n.children,
            (m.outline.stops.map JsonValue.text).flatten = m.fold :=
          fun m hm => (ih m hm (h.child hm)).trans (text_eq_fold (h.child hm))
        rw [text_eq_fold h, fold_of_children hunwritten hinner, List.flatMap_map,
          List.map_flatMap, List.flatMap_def, List.flatten_flatten, List.map_map]
        exact congrArg List.flatten (List.map_congr_left hparts)

/-- The outline of a tree is faithful, and the query can be put together from it. Let `n` be
a node of a tree that any edits have made of the tree of a query. The objects of its outline
stand at the paths of the nodes, and each depicts the node at its path. Where an object is
not marked and has children, its text is theirs from left to right. What the objects spell
at which a reader stops who goes down from the outermost one is the text of the node, and
this is the edited query if `n` is the whole tree. -/
theorem outline_is_faithful (hroot : root.Reachable) (hn : n ∈ root.preorder) :
    (∀ path, Option.Rel Depicts (n.at? path) (n.outline.at? path)) ∧
      (∀ path v, n.outline.at? path = some v → v.isMarked = false → v.children ≠ [] →
        v.text = (v.children.map JsonValue.text).flatten) ∧
      (n.outline.stops.map JsonValue.text).flatten = n.text := by
  have htiled : n.Everywhere Tiled := hroot.tiled.of_mem hn
  refine ⟨fun path => ?_, fun path v hv hunmarked hinner => ?_, flatten_stops_outline htiled⟩
  · rw [at?_outline]
    cases n.at? path with
    | none => exact .none
    | some m => exact .some m.depicts_outline
  · rw [at?_outline] at hv
    obtain ⟨m, hm, rfl⟩ := Option.map_eq_some_iff.mp hv
    have hmtiled : m.Everywhere Tiled :=
      htiled.of_mem (mem_preorder_iff_at?.mpr ⟨path, hm⟩)
    obtain ⟨hunwritten, hchildren⟩ : m.replacement = none ∧ m.children ≠ [] := by
      simpa [isOverwritten] using And.intro hunmarked hinner
    have htexts : m.children.map text = m.children.map fold :=
      List.map_congr_left fun k hk => text_eq_fold (hmtiled.child hk)
    rw [text_outline, children_outline, List.map_map, text_eq_fold hmtiled,
      fold_of_children hunwritten hchildren, ← htexts]
    exact congrArg List.flatten (List.map_congr_left fun k _ => (text_outline k).symm)

/-- Below an overwritten comparison the bound value is stale. -/
theorem outline_is_faithful_nested :
    ∃ root, parse 2 "SELECT a FROM t WHERE b = ?".toList = .ok root ∧
      (((Session.run [.bind [.text "x".toList],
          .replaceWith .conditionItem 0 fun _ _ => ("c > 1".toList, ())]
        (root, ())).1.outline.stops).map JsonValue.text).flatten =
      (Session.run [.bind [.text "x".toList],
          .replaceWith .conditionItem 0 fun _ _ => ("c > 1".toList, ())]
        (root, ())).1.text := by
  obtain ⟨root, hroot⟩ := exists_tree_of_isOk 2 "SELECT a FROM t WHERE b = ?".toList
    (by decide +kernel)
  have hreachable : Reachable (Session.run [.bind [.text "x".toList],
      .replaceWith .conditionItem 0 fun _ _ => ("c > 1".toList, ())] (root, ())).1 :=
    ⟨Unit, 2, _, root, _, (), hroot, rfl⟩
  exact ⟨root, hroot, (outline_is_faithful hreachable (self_mem_preorder _)).2.2⟩

end Node

end QueryTree
