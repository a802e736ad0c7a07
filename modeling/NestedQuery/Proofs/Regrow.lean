import NestedQuery.Proofs.Conflict
import NestedQuery.Proofs.Finish
import NestedQuery.Proofs.Listing

/-!
# Documents written back leaf by leaf

Writing the texts of a document in document order grows the document itself again, entry order
included, if no list and no map of it is empty: `ofWrites_leaves`. The texts of one child come in a
row, so all of them go into the slot that the first one opens (`growAll_under`).
-/

namespace NestedQuery

namespace Node

mutual

/-- The tree, with its lists indexed, that finishes as a value. -/
def ofValue : Value → Node
  | .scalar text => .leaf text
  | .list items => .list .indexed ⟨ofItems items⟩
  | .map entries => .map (ofEntries entries)

def ofItems : List Value → List Node
  | [] => []
  | item :: items => ofValue item :: ofItems items

def ofEntries : List (String × Value) → List (String × Node)
  | [] => []
  | (key, value) :: entries => (key, ofValue value) :: ofEntries entries

end

mutual

theorem value_ofValue : ∀ v : Value, (ofValue v).value = v
  | .scalar _ => rfl
  | .list items => by rw [ofValue, value, valueItems_ofItems items]
  | .map entries => by rw [ofValue, value, valueEntries_ofEntries entries]

theorem valueItems_ofItems : ∀ items : List Value, valueItems (ofItems items) = items
  | [] => rfl
  | item :: items => by
    rw [ofItems, valueItems, value_ofValue item, valueItems_ofItems items]

theorem valueEntries_ofEntries :
    ∀ entries : List (String × Value), valueEntries (ofEntries entries) = entries
  | [] => rfl
  | (key, v) :: entries => by
    rw [ofEntries, valueEntries, value_ofValue v, valueEntries_ofEntries entries]

end

/-- Writes texts one after another where a node is or is still missing. -/
def growAll (node? : Option Node) (leaves : List (List Segment × String)) : Option (Option Node) :=
  leaves.foldlM (fun node? leaf => some <$> grow leaf.2 leaf.1 node?) node?

theorem growAll_cons (node? : Option Node) (leaf : List Segment × String)
    (leaves : List (List Segment × String)) :
    growAll node? (leaf :: leaves) =
      (grow leaf.2 leaf.1 node?).bind fun node => growAll (some node) leaves := by
  rw [growAll, List.foldlM_cons]
  cases grow leaf.2 leaf.1 node? <;> rfl

theorem growAll_append (node? : Option Node) (front back : List (List Segment × String)) :
    growAll node? (front ++ back) = (growAll node? front).bind (growAll · back) :=
  List.foldlM_append

/-- The slot stays open to its segment, whatever is put there. -/
def Reopens (s : Segment) (put : Node → Node) : Prop :=
  ∀ c, ∃ hop, open? s (some (put c)) = some ⟨hop, some c, put⟩

section Under
variable {s : Segment} {put : Node → Node} {c c' : Node} {leaves : List (List Segment × String)}

theorem growAll_put (again : Reopens s put) (h : growAll (some c) leaves = some (some c')) :
    growAll (some (put c)) (leaves.map (under s)) = some (some (put c')) := by
  induction leaves generalizing c with
  | nil => cases h; rfl
  | cons leaf leaves ih =>
    obtain ⟨next, hnext, h⟩ := Option.bind_eq_some_iff.1 ((growAll_cons ..).symm.trans h)
    obtain ⟨hop, hopen⟩ := again c
    rw [List.map_cons, growAll_cons, under, grow_cons, hopen, Option.bind_some, hnext]
    exact ih h

/-- Texts with a common first segment are written into the slot that it opens. -/
theorem growAll_under {node? : Option Node} {hop : Hop}
    (hopen : open? s node? = some ⟨hop, none, put⟩) (again : Reopens s put)
    (h : growAll none leaves = some (some c)) :
    growAll node? (leaves.map (under s)) = some (some (put c)) := by
  cases leaves with
  | nil => cases h
  | cons leaf leaves =>
    obtain ⟨next, hnext, h⟩ := Option.bind_eq_some_iff.1 ((growAll_cons ..).symm.trans h)
    rw [List.map_cons, growAll_cons, under, grow_cons, hopen, Option.bind_some, hnext]
    exact growAll_put again h

end Under

/-! ### Slots that stay open -/

theorem reopens_push (items : Array Node) :
    Reopens (.index items.size) fun c => .list .indexed (items.push c) := by
  intro c
  refine ⟨.index items.size, ?_⟩
  simp [open?, Array.set_push]

theorem reopens_put (key : String) (entries : List (String × Node)) :
    Reopens (.name key) fun c => .map (Entries.put key c entries) := by
  intro c
  refine ⟨.name key, ?_⟩
  simp only [open?, Entries.lookup_put_self, Entries.put_put]

/-! ### Growing a value again -/

theorem growAll_leavesItems {items : List Value} (done : Array Node)
    (ih : ∀ v ∈ items, growAll none v.leaves = some (some (ofValue v))) :
    growAll (some (.list .indexed done)) (Value.leavesItems done.size items) =
      some (some (.list .indexed ⟨done.toList ++ ofItems items⟩)) := by
  induction items generalizing done with
  | nil => simp [Value.leavesItems, growAll, ofItems]
  | cons v vs ihs =>
    have hopen : open? (.index done.size) (some (.list .indexed done)) =
        some ⟨.index done.size, none, fun c => .list .indexed (done.push c)⟩ := by
      simp [open?]
    rw [Value.leavesItems, growAll_append,
      growAll_under hopen (reopens_push done) (ih v (by simp)), Option.bind_some,
      ← done.size_push (ofValue v), ihs _ fun w hw => ih w (by simp [hw]), ofItems]
    simp

theorem growAll_leavesEntries {entries : List (String × Value)} {done : List (String × Node)}
    (hkeys : (Entries.keys done ++ Entries.keys entries).Nodup)
    (ih : ∀ e ∈ entries, growAll none e.2.leaves = some (some (ofValue e.2))) :
    growAll (some (.map done)) (Value.leavesEntries entries) =
      some (some (.map (done ++ ofEntries entries))) := by
  induction entries generalizing done with
  | nil => simp [Value.leavesEntries, growAll, ofEntries]
  | cons entry entries ihs =>
    obtain ⟨key, v⟩ := entry
    have hlookup : done.lookup key = none := Entries.lookup_of_not_mem_keys fun hmem =>
      (List.nodup_append.1 hkeys).2.2 key hmem key (List.mem_cons_self ..) rfl
    have hopen : open? (.name key) (some (.map done)) =
        some ⟨.name key, none, fun c => .map (Entries.put key c done)⟩ := by
      rw [open?, hlookup]
    rw [Value.leavesEntries, growAll_append,
      growAll_under hopen (reopens_put key done) (ih (key, v) (by simp)), Option.bind_some,
      Entries.put_of_lookup_eq_none hlookup, ihs _ fun e he => ih e (by simp [he]), ofEntries,
      List.append_assoc]
    · rfl
    · simpa [Entries.keys] using hkeys

theorem growAll_leaves {v : Value} (filled : v.Everywhere Value.Filled)
    (regular : v.Everywhere Value.Regular) : growAll none v.leaves = some (some (ofValue v)) := by
  induction filled with
  | @intro v here below ih =>
    have ih : ∀ c ∈ v.children, growAll none c.leaves = some (some (ofValue c)) := fun c hc =>
      ih c hc (regular.child hc)
    -- the first child makes the container, the others find it there
    match v, here, ih, regular with
    | .scalar text, _, _, _ => rfl
    | .list (first :: others), _, ih, _ =>
      have hfirst : growAll none (first.leaves.map (under (.index 0))) =
          some (some (.list .indexed #[ofValue first])) :=
        growAll_under rfl (reopens_push #[]) (ih first (List.mem_cons_self ..))
      rw [Value.leaves, Value.leavesItems, growAll_append, hfirst, Option.bind_some, ofValue,
        ofItems]
      have hothers : ∀ v ∈ others, growAll none v.leaves = some (some (ofValue v)) :=
        fun v hv => ih v (List.mem_cons_of_mem _ hv)
      exact growAll_leavesItems #[ofValue first] hothers
    | .map ((key, first) :: others), _, ih, regular =>
      have hfirst : growAll none (first.leaves.map (under (.name key))) =
          some (some (.map [(key, ofValue first)])) :=
        growAll_under rfl (reopens_put key []) (ih first (List.mem_cons_self ..))
      rw [Value.leaves, Value.leavesEntries, growAll_append, hfirst, Option.bind_some, ofValue,
        ofEntries]
      have hkeys : (Entries.keys [(key, ofValue first)] ++ Entries.keys others).Nodup :=
        regular.here.distinct
      exact growAll_leavesEntries hkeys fun e he =>
        ih e.2 (List.mem_map_of_mem (List.mem_cons_of_mem _ he))
    | .list [], here, _, _ | .map [], here, _, _ =>
      simp [Value.Filled, Value.isScalar, Value.children] at here

end Node

namespace Tree
variable {tree : Tree} {writes : List (KeyPath × String)}

/-- A run of writes into a tree is one into its root. -/
theorem foldlM_insert_of_growAll {entries : List (String × Node)}
    (h : Node.growAll tree.node? (writes.map fun write => (write.1.steps, write.2)) =
      some (some (.map entries))) :
    writes.foldlM (fun tree write => tree.insert write.1 write.2) tree = .ok ⟨entries⟩ := by
  induction writes generalizing tree with
  | nil =>
    have hnode : tree.node? = some (.map entries) := Option.some.inj h
    unfold node? at hnode
    split at hnode
    · cases hnode
    · cases hnode
      rfl
  | cons write writes ih =>
    obtain ⟨node, hnode, h⟩ := Option.bind_eq_some_iff.1 ((Node.growAll_cons ..).symm.trans h)
    dsimp only at hnode
    obtain ⟨next, rfl⟩ : ∃ next, node = .map next := by
      rw [grow_steps] at hnode
      obtain ⟨next, -, rfl⟩ := Option.map_eq_some_iff.1 hnode
      exact ⟨next, rfl⟩
    have hinsert : tree.insert write.1 write.2 = .ok ⟨next⟩ := insert_eq_ok_iff.2 hnode
    rw [List.foldlM_cons, hinsert]
    refine ih ?_
    rw [node?_of_insert hinsert]
    exact h

theorem finish_eq (tree : Tree) : tree.finish = ⟨Node.valueEntries tree.entries⟩ := by
  simp only [finish, Node.valueEntries_eq, Node.toValue_eq]

/-- Writing the texts of a document without empty lists and maps grows the document. -/
theorem ofWrites_leaves {doc : Document} (filled : ∀ e ∈ doc.entries, e.2.Everywhere Value.Filled)
    (regular : doc.Regular) :
    ∃ tree, ofWrites doc.leaves = .ok tree ∧ tree.finish = doc := by
  obtain ⟨entries⟩ := doc
  cases entries with
  | nil => exact ⟨.empty, rfl, rfl⟩
  | cons entry entries =>
    have root : (Value.map (entry :: entries)).Everywhere Value.Filled := by
      refine .intro (.inr (by simp [Value.children])) fun c hc => ?_
      obtain ⟨e, he, rfl⟩ := List.mem_map.1 hc
      exact filled e he
    have hgrow := Node.growAll_leaves root regular
    refine ⟨⟨Node.ofEntries (entry :: entries)⟩, foldlM_insert_of_growAll ?_, ?_⟩
    · rw [Canonical.leaves_steps]
      exact hgrow
    · rw [finish_eq, Node.valueEntries_ofEntries]

end Tree

end NestedQuery
