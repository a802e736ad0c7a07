import Mathlib.Data.Finset.Card
import NestedQuery.Proofs.Trail
import NestedQuery.Tree

/-!
# Trees under construction and their slots

`Node.trails` lists the texts of a tree under construction with the trails that lead to them, and
`Grown` is what writes keep of it. A write goes down by opening a container at one slot (`open?`).
`Opens` says what that does to the children, `Fits` which slot it is, and `of_open?_eq_none` why
there is none; what the two styles of a list and a map have in common ends here.
-/

namespace NestedQuery

/-- The hop to the item at a position of a list. -/
def ListStyle.hop : ListStyle → Nat → Hop
  | .append => .append
  | .indexed => .index

namespace Node

mutual

/-- The texts below a node, each with the trail to it. -/
def trails : Node → List (Trail × String)
  | .leaf text => [([], text)]
  | .list style ⟨items⟩ => trailsItems style 0 items
  | .map entries => trailsEntries entries

def trailsItems (style : ListStyle) (position : Nat) : List Node → List (Trail × String)
  | [] => []
  | item :: items =>
    (trails item).map (under (style.hop position)) ++ trailsItems style (position + 1) items

def trailsEntries : List (String × Node) → List (Trail × String)
  | [] => []
  | (key, node) :: entries => (trails node).map (under (.name key)) ++ trailsEntries entries

end

/-- List items with the hops to them, the first from `position` on. -/
def hops (style : ListStyle) (position : Nat) : List Node → List (Hop × Node)
  | [] => []
  | item :: items => (style.hop position, item) :: hops style (position + 1) items

/-- The nodes one level below, each with the hop to it. -/
def children : Node → List (Hop × Node)
  | .leaf _ => []
  | .list style items => hops style 0 items.toList
  | .map entries => entries.map fun entry => (.name entry.1, entry.2)

def trailsBelow (children : List (Hop × Node)) : List (Trail × String) :=
  children.flatMap fun child => child.2.trails.map (under child.1)

/-- A tree that writes have grown: no container is empty, and its slots are distinct. -/
inductive Grown : Node → Prop
  | leaf (text : String) : Grown (.leaf text)
  | container {node : Node} (ne : node.children ≠ [])
      (places : (node.children.map fun child => child.1.place).Nodup)
      (below : ∀ child ∈ node.children, Grown child.2) : Grown node

/-! ### Children -/

theorem trailsItems_eq (style : ListStyle) (position : Nat) (items : List Node) :
    trailsItems style position items = trailsBelow (hops style position items) := by
  induction items generalizing position with
  | nil => rfl
  | cons item items ih => rw [trailsItems, ih]; rfl

theorem trailsEntries_eq (entries : List (String × Node)) :
    trailsEntries entries = trailsBelow (children (.map entries)) := by
  induction entries with
  | nil => rfl
  | cons entry entries ih => rw [trailsEntries, ih]; rfl

theorem trails_list (style : ListStyle) (items : Array Node) :
    (Node.list style items).trails = trailsBelow (children (.list style items)) :=
  trailsItems_eq style 0 items.toList

theorem trails_map (entries : List (String × Node)) :
    (Node.map entries).trails = trailsBelow (children (.map entries)) :=
  trailsEntries_eq entries

theorem trails_of_children {node : Node} (h : node.children ≠ []) :
    node.trails = trailsBelow node.children := by
  cases node with
  | leaf text => exact absurd rfl h
  | list style items => exact trails_list style items
  | map entries => exact trails_map entries

theorem Grown.trails_ne_nil {node : Node} (h : node.Grown) : node.trails ≠ [] := by
  induction h with
  | leaf => simp [trails]
  | @container node ne places below ih =>
    obtain ⟨child, hchild⟩ := List.exists_mem_of_ne_nil _ ne
    obtain ⟨leaf, hleaf⟩ := List.exists_mem_of_ne_nil _ (ih child hchild)
    rw [trails_of_children ne]
    exact List.ne_nil_of_mem <|
      List.mem_flatMap.2 ⟨child, hchild, List.mem_map_of_mem hleaf⟩

variable {cs : List (Hop × Node)}

theorem mem_trailsBelow {t : Trail} :
    t ∈ (trailsBelow cs).map Prod.fst ↔
      ∃ child ∈ cs, ∃ rest ∈ child.2.trails.map Prod.fst, t = child.1 :: rest := by
  simp only [trailsBelow, List.map_flatMap, List.map_map, List.mem_flatMap, List.mem_map]
  constructor
  · rintro ⟨child, hchild, leaf, hleaf, rfl⟩
    exact ⟨child, hchild, leaf.1, ⟨leaf, hleaf, rfl⟩, rfl⟩
  · rintro ⟨child, hchild, _, ⟨leaf, hleaf, rfl⟩, rfl⟩
    exact ⟨child, hchild, leaf, hleaf, rfl⟩

/-- Every child takes a slot of its own. -/
theorem slots_trailsBelow (places : (cs.map fun child => child.1.place).Nodup)
    (grown : ∀ child ∈ cs, child.2.Grown) :
    Trail.slots ((trailsBelow cs).map Prod.fst) [] = cs.length := by
  rw [Trail.slots, ← List.card_toFinset, ← cs.length_map fun child => child.1.place,
    ← List.toFinset_card_of_nodup places]
  congr 1
  ext s
  rw [List.mem_toFinset, List.mem_toFinset]
  constructor
  · intro h
    obtain ⟨hop, hhop, rfl⟩ := List.mem_map.1 h
    obtain ⟨t, ht, hnext⟩ := List.mem_filterMap.1 hhop
    obtain ⟨child, hchild, rest, -, rfl⟩ := mem_trailsBelow.1 ht
    cases hnext
    exact List.mem_map_of_mem hchild
  · intro h
    obtain ⟨child, hchild, rfl⟩ := List.mem_map.1 h
    obtain ⟨rest, hrest⟩ := List.exists_mem_of_ne_nil _ <|
      mt List.map_eq_nil_iff.1 (grown child hchild).trails_ne_nil
    exact List.mem_map_of_mem <| List.mem_filterMap.2
      ⟨_, mem_trailsBelow.2 ⟨child, hchild, rest, hrest, rfl⟩, rfl⟩

/-! ### Opening a container at a slot -/

/-- A slot of a container: the hop to it, what it holds, and the container with another node. -/
structure Opening where
  hop : Hop
  child : Option Node
  put : Node → Node

/-- Opens the slot that a segment leads to. There is no such slot in a text, in a container
addressed in another way, or past the end of a list. -/
def open? (s : Segment) : Option Node → Option Opening
  | none =>
    match s with
    | .name key => some ⟨.name key, none, fun c => .map [(key, c)]⟩
    | .index position =>
      if position = 0 then some ⟨.index 0, none, fun c => .list .indexed #[c]⟩ else none
    | .append => some ⟨.append 0, none, fun c => .list .append #[c]⟩
  | some node =>
    match s, node with
    | .name key, .map entries =>
      some ⟨.name key, entries.lookup key, fun c => .map (Entries.put key c entries)⟩
    | .append, .list .append items =>
      some ⟨.append items.size, none, fun c => .list .append (items.push c)⟩
    | .index position, .list .indexed items =>
      if h : position < items.size then
        some ⟨.index position, some items[position],
          fun c => .list .indexed (items.set position c)⟩
      else if position = items.size then
        some ⟨.index position, none, fun c => .list .indexed (items.push c)⟩
      else none
    | _, _ => none

/-- The children of a node, none if it is missing. -/
def children? (node? : Option Node) : List (Hop × Node) :=
  node?.elim [] Node.children

def trails? (node? : Option Node) : List (Trail × String) :=
  node?.elim [] Node.trails

/-- A slot of a container with such children: that of one of them, or a new one behind them. -/
inductive Opens (cs : List (Hop × Node)) (o : Opening) : Prop
  | there {front back : List (Hop × Node)} {old : Node}
      (split : cs = front ++ (o.hop, old) :: back) (child : o.child = some old)
      (put : ∀ c, (o.put c).children = front ++ (o.hop, c) :: back)
  | new (child : o.child = none) (fresh : o.hop.place ∉ cs.map fun child => child.1.place)
      (put : ∀ c, (o.put c).children = cs ++ [(o.hop, c)])

theorem hops_append (style : ListStyle) (n : Nat) (front back : List Node) :
    hops style n (front ++ back) = hops style n front ++ hops style (n + front.length) back := by
  induction front generalizing n with
  | nil => rfl
  | cons node front ih =>
    rw [List.cons_append, hops, hops, ih, List.cons_append, List.length_cons,
      Nat.add_assoc, Nat.add_comm 1]

theorem length_hops (style : ListStyle) (n : Nat) (items : List Node) :
    (hops style n items).length = items.length := by
  induction items generalizing n with
  | nil => rfl
  | cons node items ih => simp [hops, ih]

theorem place_hop (style : ListStyle) (n : Nat) : (style.hop n).place = .index n := by
  cases style <;> rfl

theorem exists_of_mem_hops {style : ListStyle} {n : Nat} {items : List Node} {child : Hop × Node}
    (h : child ∈ hops style n items) : ∃ i < items.length, child.1 = style.hop (n + i) := by
  induction items generalizing n with
  | nil => cases h
  | cons node items ih =>
    rcases List.mem_cons.1 h with rfl | h
    · exact ⟨0, by simp, rfl⟩
    · obtain ⟨i, hi, hchild⟩ := ih h
      exact ⟨i + 1, by simpa using hi, by rw [hchild, Nat.add_assoc, Nat.add_comm 1]⟩

theorem fresh_hops (style : ListStyle) (items : List Node) :
    .index items.length ∉ (hops style 0 items).map fun child => child.1.place := by
  intro h
  obtain ⟨child, hchild, hplace⟩ := List.mem_map.1 h
  obtain ⟨i, hi, hhop⟩ := exists_of_mem_hops hchild
  rw [hhop, place_hop, Segment.index.injEq] at hplace
  omega

theorem opens_push (style : ListStyle) (items : Array Node) :
    Opens (children (.list style items))
      ⟨style.hop items.size, none, fun c => .list style (items.push c)⟩ := by
  refine .new rfl ?_ fun c => ?_
  · rw [place_hop]
    exact fresh_hops style items.toList
  · simp only [children, Array.toList_push, hops_append, Nat.zero_add, Array.length_toList]
    rfl

theorem opens_set (style : ListStyle) (items : Array Node) {position : Nat}
    (h : position < items.size) :
    Opens (children (.list style items))
      ⟨style.hop position, some items[position],
        fun c => .list style (items.set position c)⟩ := by
  have hlen : (items.toList.take position).length = position := by
    rw [List.length_take, Array.length_toList]
    omega
  have hcut : items.toList.take position ++
      items[position] :: items.toList.drop (position + 1) = items.toList := by
    rw [← Array.getElem_toList h, List.getElem_cons_drop, List.take_append_drop]
  have split : children (.list style items) =
      hops style 0 (items.toList.take position) ++ (style.hop position, items[position]) ::
        hops style (position + 1) (items.toList.drop (position + 1)) := by
    rw [children, ← hcut, hops_append, hcut, hlen, Nat.zero_add]
    rfl
  refine .there split rfl fun c => ?_
  simp only [children, Array.toList_set, List.set_eq_take_append_cons_drop, Array.length_toList, h,
    if_true, hops_append, Nat.zero_add, hlen]
  rfl

theorem opens_name (key : String) (entries : List (String × Node)) :
    Opens (children (.map entries))
      ⟨.name key, entries.lookup key, fun c => .map (Entries.put key c entries)⟩ := by
  cases h : entries.lookup key with
  | none =>
    refine .new rfl ?_ fun c => ?_
    · intro hmem
      simp only [children, List.map_map, List.mem_map, Function.comp_apply, Hop.place,
        Segment.name.injEq] at hmem
      exact Entries.not_mem_keys_of_lookup h (List.mem_map.2 hmem)
    · simp only [children, Entries.put_of_lookup_eq_none h, List.map_append]
      rfl
  | some old =>
    obtain ⟨front, back, rfl, hput⟩ := Entries.exists_of_lookup_eq_some h
    have split : children (.map (front ++ (key, old) :: back)) =
        children (.map front) ++ (.name key, old) :: children (.map back) := by
      simp only [children, List.map_append, List.map_cons]
    refine .there split rfl fun c => ?_
    simp only [children, hput, List.map_append, List.map_cons]

/-- The slot `o` is the one that the segment `s` leads to in a container with such children. -/
structure Fits (cs : List (Hop × Node)) (s : Segment) (o : Opening) : Prop where
  opens : Opens cs o
  hop : o.hop = s.resolve cs.length
  kind : ∀ child ∈ cs, child.1.kind = s.kind
  no_gap : ∀ position, s = .index position → position ≤ cs.length

theorem kind_of_mem_hops {style : ListStyle} {n : Nat} {items : List Node} {child : Hop × Node}
    (h : child ∈ hops style n items) : child.1.kind = (style.hop 0).kind := by
  obtain ⟨i, -, hhop⟩ := exists_of_mem_hops h
  rw [hhop]
  cases style <;> rfl

theorem length_children_list (style : ListStyle) (items : Array Node) :
    (children (.list style items)).length = items.size :=
  length_hops style 0 items.toList

theorem fits_of_open? {s : Segment} {node? : Option Node} {o : Opening}
    (h : open? s node? = some o) : Fits (children? node?) s o := by
  match node?, s with
  | none, .name key | none, .append =>
    cases h
    exact ⟨.new rfl (by simp [children?]) fun _ => rfl, rfl, by simp [children?], by simp⟩
  | none, .index position =>
    rw [open?] at h
    split at h
    · rename_i hzero
      cases h
      subst hzero
      exact ⟨.new rfl (by simp [children?]) fun _ => rfl, rfl, by simp [children?], by simp⟩
    · cases h
  | some (.map entries), .name key =>
    cases h
    refine ⟨opens_name key entries, rfl, fun child hchild => ?_, by simp⟩
    obtain ⟨entry, -, rfl⟩ := List.mem_map.1 hchild
    rfl
  | some (.list .append items), .append =>
    cases h
    refine ⟨opens_push .append items, ?_, fun child hchild => kind_of_mem_hops hchild, by simp⟩
    rw [show children? (some (.list .append items)) = children (.list .append items) from rfl,
      length_children_list]
    rfl
  | some (.list .indexed items), .index position =>
    have hlen : (children? (some (.list .indexed items))).length = items.size :=
      length_children_list .indexed items
    rw [open?] at h
    split at h
    · rename_i hlt
      cases h
      refine ⟨opens_set .indexed items hlt, rfl, fun child hchild => kind_of_mem_hops hchild, ?_⟩
      rintro _ ⟨⟩
      omega
    · split at h
      · rename_i heq
        cases h
        subst heq
        refine ⟨opens_push .indexed items, rfl, fun child hchild => kind_of_mem_hops hchild, ?_⟩
        rintro _ ⟨⟩
        omega
      · cases h

/-- Where there is no slot for a segment: in a container whose children are addressed in another
way, and past the next free position of a list. -/
theorem of_open?_eq_none {s : Segment} {node : Node} (ne : node.children ≠ [])
    (h : open? s (some node) = none) :
    (∃ child ∈ node.children, child.1.kind ≠ s.kind) ∨
      ∃ position, s = .index position ∧ node.children.length < position := by
  obtain ⟨child, hchild⟩ := List.exists_mem_of_ne_nil _ ne
  match node, s with
  | .leaf _, _ => cases hchild
  | .map entries, .name _ => cases h
  | .list .append items, .append => cases h
  | .list .indexed items, .index position =>
    right
    rw [open?] at h
    split_ifs at h with hlt heq
    refine ⟨position, rfl, ?_⟩
    rw [length_children_list]
    omega
  | .map entries, .index _ | .map entries, .append =>
    obtain ⟨entry, -, rfl⟩ := List.mem_map.1 hchild
    exact .inl ⟨_, hchild, nofun⟩
  | .list style items, .name _ =>
    refine .inl ⟨child, hchild, ?_⟩
    rw [kind_of_mem_hops hchild]
    cases style <;> nofun
  | .list .append items, .index _ | .list .indexed items, .append =>
    refine .inl ⟨child, hchild, ?_⟩
    rw [kind_of_mem_hops hchild]
    nofun

end Node

end NestedQuery
