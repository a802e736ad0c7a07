import NestedQuery.Proofs.Placement
import NestedQuery.Proofs.Symmetry

/-!
# Appends and indices

Whatever a tree makes of a key with appends, the tree with all its lists indexed makes of the key
that names the positions they take: `insert_locate`, from `grow_locate` for one node. The two trees
finish as one document (`finish_indexed`).
-/

namespace NestedQuery

namespace Node
variable {s : Segment} {o : Opening} {node? : Option Node}

/-- The same tree with all lists addressed by index. -/
def indexed (node : Node) : Node :=
  ofValue node.value

theorem ofItems_eq_map (items : List Value) : ofItems items = items.map ofValue := by
  induction items with
  | nil => rfl
  | cons item items ih => rw [ofItems, ih, List.map_cons]

theorem indexed_list (style : ListStyle) (items : Array Node) :
    (list style items).indexed = .list .indexed (items.map indexed) := by
  have hitems : ofItems (valueItems items.toList) = (items.map indexed).toList := by
    rw [ofItems_eq_map, valueItems_eq_map, List.map_map, Array.toList_map]
    rfl
  rw [indexed, value, ofValue, hitems]

theorem indexed_map (entries : List (String × Node)) :
    (map entries).indexed = .map (ofEntries (valueEntries entries)) := by
  rw [indexed, value, ofValue]

theorem lookup_ofEntries (key : String) (entries : List (String × Value)) :
    (ofEntries entries).lookup key = (entries.lookup key).map ofValue := by
  induction entries with
  | nil => rfl
  | cons entry entries ih =>
    rw [ofEntries, List.lookup_cons, List.lookup_cons, ih]
    split <;> rfl

theorem ofEntries_put (key : String) (v : Value) (entries : List (String × Value)) :
    ofEntries (Entries.put key v entries) = Entries.put key (ofValue v) (ofEntries entries) := by
  induction entries with
  | nil => rfl
  | cons entry entries ih =>
    rw [Entries.put, ofEntries, Entries.put]
    split
    · rfl
    · rw [ofEntries, ih]

/-- The slot that a segment opens is open by its index in the indexed tree. -/
theorem exists_open?_indexed (h : open? s node? = some o) :
    ∃ again, open? o.hop.place (node?.map indexed) = some again ∧
      again.child = o.child.map indexed ∧ ∀ c, again.put c.indexed = (o.put c).indexed := by
  match node?, s with
  | none, .name _ | none, .append =>
    cases h
    exact ⟨_, rfl, rfl, fun c => rfl⟩
  | none, .index position =>
    rw [open?] at h
    split_ifs at h
    cases h
    exact ⟨_, rfl, rfl, fun c => rfl⟩
  | some (.map entries), .name key =>
    cases h
    rw [Option.map_some, indexed_map]
    refine ⟨_, rfl, ?_, fun c => ?_⟩
    · simp only [lookup_ofEntries, lookup_valueEntries, Option.map_map]
      rfl
    · rw [indexed_map, valueEntries_put, ofEntries_put]
      rfl
  | some (.list .append items), .append =>
    cases h
    -- the index of the new item is the end of the list
    have hopen : open? (.index items.size) (some (.list .indexed (items.map indexed))) =
        some ⟨.index items.size, none, fun c => .list .indexed ((items.map indexed).push c)⟩ := by
      simp [open?]
    rw [Option.map_some, indexed_list]
    refine ⟨_, hopen, rfl, fun c => ?_⟩
    rw [indexed_list, Array.map_push]
  | some (.list .indexed items), .index position =>
    rw [Option.map_some, indexed_list]
    have hsize : (items.map indexed).size = items.size := Array.size_map
    rw [open?] at h
    split_ifs at h with hlt heq
    · cases h
      refine ⟨_, dif_pos (hsize.symm ▸ hlt), ?_, fun c => ?_⟩
      · simp only [Array.getElem_map, Option.map_some]
      · rw [indexed_list, Array.map_set]
    · cases h
      refine ⟨_, (dif_neg (hsize.symm ▸ hlt)).trans (if_pos (hsize.symm ▸ heq)), rfl, fun c => ?_⟩
      rw [indexed_list, Array.map_push]

/-- A write has the same outcome in the indexed tree if it names the positions its appends take. -/
theorem grow_locate {text : String} {path : List Segment} {node : Node}
    (h : grow text path node? = some node) :
    grow text (Value.locate (node?.map value) path) (node?.map indexed) = some node.indexed := by
  induction path generalizing node? node with
  | nil =>
    obtain rfl := eq_none_of_grow_nil h
    cases h
    rfl
  | cons s path ih =>
    rw [grow_cons] at h
    obtain ⟨o, ho, h⟩ := Option.bind_eq_some_iff.1 h
    obtain ⟨c, hc, rfl⟩ := Option.map_eq_some_iff.1 h
    obtain ⟨again, hagain, hchild, hput⟩ := exists_open?_indexed ho
    rw [locate_of_open? ho, grow_cons, hagain, Option.bind_some, hchild, ih hc, Option.map_some,
      hput]

end Node

namespace Tree
variable {tree next : Tree} {path : KeyPath} {text : String}

/-- The same tree with all lists addressed by index. -/
def indexed (tree : Tree) : Tree :=
  ⟨Node.ofEntries tree.finish.entries⟩

theorem node?_indexed (tree : Tree) : tree.indexed.node? = tree.node?.map Node.indexed := by
  rw [node?, node?, indexed, finish_eq]
  cases h : tree.entries with
  | nil => rfl
  | cons entry entries => rfl

theorem finish_indexed (tree : Tree) : tree.indexed.finish = tree.finish := by
  rw [finish_eq, indexed, Node.valueEntries_ofEntries]

/-- What a write makes of a tree, the write to its place makes of the indexed tree. -/
theorem insert_locate (h : tree.insert path text = .ok next) :
    tree.indexed.insert (tree.finish.locate path) text = .ok next.indexed := by
  rw [insert_eq_ok_iff] at h ⊢
  rw [← locate_steps, node?_indexed, Node.grow_locate h, Node.indexed_map, indexed, finish_eq]

/-- The place of a write has no appends, and no position that an index cannot name. -/
theorem Holds.step_of_locate {history : List (Trail × String)} (h : tree.Holds history)
    (hinsert : tree.insert path text = .ok next) (hlen : history.length < indexBound) :
    ∀ s ∈ (tree.finish.locate path).steps,
      s ≠ .append ∧ ∀ position, s = .index position → position < indexBound := by
  have holds := h.insert hinsert
  have hbounded := holds.bounded_finish (by simpa [record] using hlen)
  -- the text that is written stands there in the next document
  refine Value.step_of_mem_leaves hbounded ((tree.finish.locate path).steps, text) ?_
  rw [holds.leaves_finish.mem_iff, record, List.map_append, ← h.address_resolve hinsert]
  exact List.mem_append_right _ (List.mem_singleton_self _)

end Tree

end NestedQuery
