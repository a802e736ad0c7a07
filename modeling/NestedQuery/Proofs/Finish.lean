import NestedQuery.Proofs.Conversion
import NestedQuery.Proofs.Growth

/-!
# Finished trees

The texts of the value that a tree is converted to are those of the tree, at the addresses of their
trails (`leaves_value`), and the value of a grown tree has no empty list or map and no key twice.
-/

namespace NestedQuery

namespace Node

theorem keys_valueEntries (entries : List (String × Node)) :
    Entries.keys (valueEntries entries) = Entries.keys entries := by
  rw [valueEntries_eq, Entries.keys, List.map_map]
  rfl

theorem lookup_valueEntries (key : String) (entries : List (String × Node)) :
    (valueEntries entries).lookup key = (entries.lookup key).map value := by
  induction entries with
  | nil => rfl
  | cons entry entries ih =>
    rw [valueEntries, List.lookup_cons, List.lookup_cons, ih]
    split <;> rfl

theorem valueEntries_put (key : String) (node : Node) (entries : List (String × Node)) :
    valueEntries (Entries.put key node entries) =
      Entries.put key node.value (valueEntries entries) := by
  induction entries with
  | nil => rfl
  | cons entry entries ih =>
    rw [Entries.put, valueEntries, Entries.put]
    split
    · rfl
    · rw [valueEntries, ih]

/-! ### The texts of a finished tree -/

/-- Where the text of a trail stands in the document. -/
def atAddress (leaf : Trail × String) : List Segment × String :=
  (leaf.1.address, leaf.2)

theorem map_atAddress_under (hop : Hop) (leaves : List (Trail × String)) :
    (leaves.map (under hop)).map atAddress = (leaves.map atAddress).map (under hop.place) := by
  simp only [List.map_map]
  rfl

mutual

/-- The texts of a finished tree stand at the addresses of their trails. -/
theorem leaves_value : ∀ node : Node, node.value.leaves = node.trails.map atAddress
  | .leaf _ => rfl
  | .list style ⟨items⟩ => leavesItems_value style 0 items
  | .map entries => leavesEntries_value entries

theorem leavesItems_value (style : ListStyle) : ∀ (n : Nat) (items : List Node),
    Value.leavesItems n (valueItems items) = (trailsItems style n items).map atAddress
  | _, [] => rfl
  | n, item :: items => by
    rw [valueItems, Value.leavesItems, leaves_value item, leavesItems_value style (n + 1) items,
      trailsItems, List.map_append, map_atAddress_under, place_hop]

theorem leavesEntries_value : ∀ entries : List (String × Node),
    Value.leavesEntries (valueEntries entries) = (trailsEntries entries).map atAddress
  | [] => rfl
  | (key, node) :: entries => by
    rw [valueEntries, Value.leavesEntries, leaves_value node, leavesEntries_value entries,
      trailsEntries, List.map_append, map_atAddress_under]
    rfl

end

/-! ### The shape of a finished tree -/

theorem valueItems_eq (style : ListStyle) (n : Nat) (items : List Node) :
    valueItems items = (hops style n items).map fun child => child.2.value := by
  induction items generalizing n with
  | nil => rfl
  | cons item items ih => rw [valueItems, ih (n + 1), hops, List.map_cons]

theorem children_value (node : Node) :
    node.value.children = node.children.map fun child => child.2.value := by
  cases node with
  | leaf => rfl
  | list style items => exact valueItems_eq style 0 items.toList
  | map entries =>
    rw [value, Value.children, valueEntries_eq, children, List.map_map, List.map_map]
    rfl

theorem length_trails_le {cs : List (Hop × Node)} {child : Hop × Node} (h : child ∈ cs) :
    child.2.trails.length ≤ (trailsBelow cs).length := by
  obtain ⟨front, back, rfl⟩ := List.append_of_mem h
  rw [← List.singleton_append, trailsBelow_append, trailsBelow_append, trailsBelow_singleton,
    List.length_append, List.length_append, List.length_map]
  omega

theorem length_le_length_trailsBelow {cs : List (Hop × Node)}
    (grown : ∀ child ∈ cs, child.2.Grown) : cs.length ≤ (trailsBelow cs).length := by
  induction cs with
  | nil => exact Nat.le_refl _
  | cons child cs ih =>
    have hchild := List.length_pos_iff.2 (grown child (by simp)).trails_ne_nil
    have hcs := ih fun c hc => grown c (by simp [hc])
    rw [← List.singleton_append, trailsBelow_append, trailsBelow_singleton, List.length_append,
      List.length_append, List.length_map, List.length_singleton]
    omega

/-- What holds of every node that has grown holds everywhere in the value of one; no node below it
holds more texts. -/
theorem Grown.everywhere_value {P : Value → Prop} {node : Node} {bound : Nat}
    (h : node.Grown) (hlen : node.trails.length ≤ bound)
    (step : ∀ node : Node, node.Grown → node.trails.length ≤ bound → P node.value) :
    node.value.Everywhere P := by
  induction h with
  | leaf text => exact .intro (step _ (.leaf text) hlen) (by simp [value, Value.children])
  | @container node ne places below ih =>
    refine .intro (step node (.container ne places below) hlen) ?_
    rw [children_value]
    rintro _ hmem
    obtain ⟨child, hchild, rfl⟩ := List.mem_map.1 hmem
    rw [trails_of_children ne] at hlen
    exact ih child hchild ((length_trails_le hchild).trans hlen)

theorem Grown.filled_value {node : Node} (h : node.Grown) :
    node.value.Everywhere Value.Filled := by
  refine h.everywhere_value (Nat.le_refl _) fun node h _ => ?_
  cases h with
  | leaf => exact .inl rfl
  | container ne =>
    right
    rw [children_value]
    exact mt List.map_eq_nil_iff.1 ne

theorem Grown.distinct_value {node : Node} (h : node.Grown) :
    node.value.Everywhere Value.Distinct := by
  refine h.everywhere_value (Nat.le_refl _) fun node h _ => ?_
  cases h with
  | leaf => exact List.nodup_nil
  | container _ places =>
    cases node with
    | leaf | list => simp [value]
    | map entries =>
      rw [value, Value.distinct_map, Entries.keys, valueEntries_eq, List.map_map]
      rw [children, List.map_map] at places
      refine List.Nodup.of_map Segment.name ?_
      rwa [List.map_map]

/-- A tree that has grown from few enough writes has no list too long for its indices. -/
theorem Grown.bounded_value {node : Node} (h : node.Grown)
    (hlen : node.trails.length ≤ indexBound) : node.value.Everywhere Value.Bounded := by
  refine h.everywhere_value hlen fun node h hlen => ?_
  cases h with
  | leaf => simp [value]
  | container ne _ below =>
    cases node with
    | leaf | map => simp [value]
    | list style items =>
      rw [trails_of_children ne] at hlen
      rw [value, Value.bounded_list, valueItems_eq style 0, List.length_map]
      exact (length_le_length_trailsBelow below).trans hlen

end Node

end NestedQuery
