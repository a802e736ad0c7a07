import NestedQuery.Proofs.Controls

/-!
# Where the texts of a query stand

Every pair with a key puts one text into the document, at the place that its key leads to in the
document made of the pairs before it (`Document.locate`); the later pairs move none of them. So the
texts of the document are those of the pairs, each in a place of its own: `parse_places`.
-/

namespace NestedQuery

/-- The slot that a segment leads to in a container of so many slots. -/
def Segment.slot (count : Nat) : Segment → Segment
  | .append => .index count
  | s => s

theorem Segment.place_resolve (count : Nat) (s : Segment) :
    (s.resolve count).place = s.slot count := by
  cases s <;> rfl

namespace Value

/-- The place that a path leads to from a value that may be missing: an append takes the position
behind the items of the list. -/
def locate (value? : Option Value) : List Segment → List Segment
  | [] => []
  | s :: path =>
    let slot := s.slot (value?.elim 0 (·.children.length))
    slot :: locate (value?.bind (·.child? slot)) path

theorem foldl_child?_of_mem_leaves {v : Value} (distinct : v.Everywhere Distinct) :
    ∀ leaf ∈ v.leaves,
      leaf.1.foldl (fun value s => value.bind (·.child? s)) (some v) = some (.scalar leaf.2) := by
  intro leaf hleaf
  obtain ⟨w, hw, hstands⟩ :=
    exists_foldl_child?_of_mem_contents distinct _ (mem_contents_of_mem_leaves leaf hleaf)
  rw [hw, show w = .scalar leaf.2 from hstands]

/-- Where no list and no map is empty, every key is on the way to a text. -/
theorem everywhere_keys_of_leaves {C : String → Prop} {v : Value}
    (filled : ∀ c ∈ v.children, c.Everywhere Filled)
    (h : ∀ leaf ∈ v.leaves, ∀ key, .name key ∈ leaf.1 → C key) :
    v.Everywhere fun v => ∀ key ∈ v.keys, C key := by
  induction v using children_induction with
  | step v ih =>
    refine .intro (fun key hkey => ?_) fun c hc => ?_
    · cases v with
      | scalar | list => cases hkey
      | map entries =>
        obtain ⟨e, he, rfl⟩ := List.mem_map.1 hkey
        -- the value behind the key is not empty, so some text stands below it
        obtain ⟨l, hl⟩ :=
          List.exists_mem_of_ne_nil _ (leaves_ne_nil (filled e.2 (List.mem_map_of_mem he)))
        exact h _ (mem_leavesEntries.2 ⟨e, he, l, hl, rfl⟩) e.1 (List.mem_cons_self ..)
    · obtain ⟨s, hs⟩ := exists_under_of_mem_children hc
      exact ih c hc (fun d hd => (filled c hc).child hd) fun l hl key hkey =>
        h _ (hs l hl) key (List.mem_cons_of_mem _ hkey)

end Value

namespace Document

/-- The place that a key path leads to in a document. -/
def locate (doc : Document) (path : KeyPath) : KeyPath :=
  ⟨path.root, Value.locate (doc.entries.lookup path.root) path.segments⟩

theorem at?_of_mem_leaves {doc : Document} (distinct : doc.root.Everywhere Value.Distinct)
    {leaf : KeyPath × String} (h : leaf ∈ doc.leaves) : doc.at? leaf.1 = some (.scalar leaf.2) :=
  Value.foldl_child?_of_mem_leaves distinct _ (mem_root_leaves h)

end Document

/-! ### One write -/

namespace Node
variable {s : Segment} {o : Opening} {node? : Option Node}

/-- The slot that is opened holds the same in the finished document. -/
theorem child?_value_of_open? (h : open? s node? = some o) :
    (node?.map value).bind (·.child? o.hop.place) = o.child.map value := by
  match node?, s with
  | none, .name _ | none, .append =>
    cases h
    rfl
  | none, .index position =>
    rw [open?] at h
    split_ifs at h
    cases h
    rfl
  | some (.map entries), .name key =>
    cases h
    exact lookup_valueEntries key entries
  | some (.list .append items), .append =>
    cases h
    show (valueItems items.toList)[items.size]? = none
    rw [valueItems_eq_map, List.getElem?_eq_none_iff, List.length_map, Array.length_toList]
  | some (.list .indexed items), .index position =>
    have hitems : (Node.list .indexed items).value.child? (.index position) =
        items.toList[position]?.map value := by
      show (valueItems items.toList)[position]? = _
      rw [valueItems_eq_map, List.getElem?_map]
    rw [open?] at h
    split_ifs at h with hlt heq
    · cases h
      rw [Option.map_some, Option.bind_some]
      simp only [Hop.place, hitems, Array.getElem?_toList, Array.getElem?_eq_getElem hlt]
    · cases h
      rw [Option.map_some, Option.bind_some]
      simp only [Hop.place, hitems, Array.getElem?_toList,
        Array.getElem?_eq_none (Nat.not_lt.1 hlt), Option.map_none]

theorem length_children?_value (node? : Option Node) :
    (node?.map value).elim 0 (·.children.length) = (children? node?).length := by
  cases node? with
  | none => rfl
  | some node => rw [Option.map_some, Option.elim_some, children_value, List.length_map]; rfl

/-- In the finished document a path goes on in the slot that its first segment opens. -/
theorem locate_of_open? (h : open? s node? = some o) (path : List Segment) :
    Value.locate (node?.map value) (s :: path) =
      o.hop.place :: Value.locate (o.child.map value) path := by
  have hplace : s.slot (children? node?).length = o.hop.place := by
    rw [(fits_of_open? h).hop, Segment.place_resolve]
  rw [Value.locate, length_children?_value, hplace, child?_value_of_open? h]

theorem address_resolveFrom {text : String} {path : List Segment} {node : Node}
    (grown : ∀ node ∈ node?, node.Grown) (h : grow text path node? = some node) :
    (Trail.resolveFrom ((trails? node?).map Prod.fst) [] path).address =
      Value.locate (node?.map value) path := by
  induction path generalizing node? node with
  | nil => rfl
  | cons s path ih =>
    rw [grow_cons] at h
    obtain ⟨o, ho, h⟩ := Option.bind_eq_some_iff.1 h
    obtain ⟨c, hc, -⟩ := Option.map_eq_some_iff.1 h
    -- the slot that the write opens is the one that the document is asked for
    rw [resolve_of_open? grown ho, locate_of_open? ho, ← ih (grown_of_open? grown ho) hc]
    rfl

end Node

/-! ### Runs of writes -/

namespace Tree
variable {tree tree' : Tree} {path : KeyPath} {text : String} {write : KeyPath × String}
  {writes front back : List (KeyPath × String)}

theorem locate_steps (tree : Tree) (path : KeyPath) :
    Value.locate (tree.node?.map Node.value) path.steps = (tree.finish.locate path).steps := by
  rw [finish_eq]
  unfold node?
  split
  · rename_i h
    rw [List.isEmpty_iff.1 h]
    rfl
  · rfl

theorem Holds.address_resolve {history : List (Trail × String)} (h : tree.Holds history)
    (hinsert : tree.insert path text = .ok tree') :
    (Trail.resolve (history.map Prod.fst) path).address = (tree.finish.locate path).steps := by
  rw [Trail.resolve_perm (h.trails.map Prod.fst).symm, Trail.resolve,
    Node.address_resolveFrom h.grown (insert_eq_ok_iff.1 hinsert), locate_steps]

theorem Holds.not_mem_addresses {history : List (Trail × String)} (h : tree.Holds history)
    (hinsert : tree.insert path text = .ok tree') :
    (Trail.resolve (history.map Prod.fst) path).address ∉
      history.map fun entry => entry.1.address := by
  intro hmem
  obtain ⟨entry, hentry, haddress⟩ := List.mem_map.1 hmem
  -- two texts in one place overlap, and no write that clashes with the past is taken
  have hclash : Trail.Clash (history.map Prod.fst) (Trail.resolve (history.map Prod.fst) path) :=
    .overlap (List.mem_map_of_mem hentry) (.inl (haddress ▸ List.prefix_refl _))
  rw [← h.grow_eq_none_iff path text, insert_eq_ok_iff.1 hinsert] at hclash
  cases hclash

theorem nodup_addresses (h : ofWrites writes = .ok tree) :
    ((history writes).map fun entry => entry.1.address).Nodup := by
  induction writes using List.reverseRecOn generalizing tree with
  | nil => exact List.nodup_nil
  | append_singleton writes write ih =>
    rw [ofWrites_append_singleton, Result.bind_eq_ok] at h
    obtain ⟨before, hbefore, hinsert⟩ := h
    rw [history_append_singleton, record, List.map_append]
    refine List.nodup_append.2 ⟨ih hbefore, List.nodup_singleton _, fun old hold new hnew heq => ?_⟩
    rw [heq, List.mem_singleton.1 hnew] at hold
    exact (holds_of_ofWrites hbefore).not_mem_addresses hinsert hold

theorem history_append (front back : List (KeyPath × String)) :
    ∃ later, history (front ++ back) = history front ++ later := by
  induction back using List.reverseRecOn with
  | nil => exact ⟨[], by simp⟩
  | append_singleton back write ih =>
    obtain ⟨later, hlater⟩ := ih
    rw [← List.append_assoc, history_append_singleton, record, hlater, List.append_assoc]
    exact ⟨_, rfl⟩

/-- The texts of a run with the places they take, in the order of writing. -/
def placed (writes : List (KeyPath × String)) : List (KeyPath × String) :=
  (history writes).map fun entry => (.ofSteps entry.1.address, entry.2)

/-- Each write of a run goes where its key leads after the writes before it. -/
theorem exists_before (h : ofWrites (front ++ write :: back) = .ok tree) :
    ∃ before, ofWrites front = .ok before ∧
      (placed (front ++ write :: back))[front.length]? =
        some (before.finish.locate write.1, write.2) := by
  rw [ofWrites, List.foldlM_append, Result.bind_eq_ok] at h
  obtain ⟨before, hbefore, h⟩ := h
  rw [List.foldlM_cons, Result.bind_eq_ok] at h
  obtain ⟨after, hinsert, -⟩ := h
  obtain ⟨later, hlater⟩ := history_append (front ++ [write]) back
  rw [history_append_singleton, record, List.append_assoc, List.append_assoc,
    List.singleton_append, List.singleton_append] at hlater
  refine ⟨before, hbefore, ?_⟩
  rw [placed, hlater, List.map_append, (history_resolves front).length_eq,
    ← List.length_map, List.getElem?_append_right (Nat.le_refl _), Nat.sub_self, List.map_cons,
    List.getElem?_cons_zero, (holds_of_ofWrites hbefore).address_resolve hinsert]
  rfl

/-- The texts of a grown document are those written, each in its place. -/
theorem leaves_finish_perm_placed (h : ofWrites writes = .ok tree) :
    tree.finish.leaves.Perm (placed writes) := by
  have hperm := (leaves_finish_perm h).map fun leaf => (KeyPath.ofSteps leaf.1, leaf.2)
  rw [List.map_map, List.map_map] at hperm
  rwa [List.map_id''] at hperm
  exact fun _ => rfl

theorem nodup_placed (h : ofWrites writes = .ok tree) : ((placed writes).map Prod.fst).Nodup := by
  have haddresses := (leaves_finish_perm h).map Prod.fst
  rw [List.map_map, List.map_map] at haddresses
  have hsteps := haddresses.nodup_iff.2 (nodup_addresses h)
  have hpaths : (tree.finish.leaves.map Prod.fst).Nodup := .of_map KeyPath.steps <| by
    rwa [List.map_map]
  exact ((leaves_finish_perm_placed h).map Prod.fst).nodup_iff.1 hpaths

end Tree

namespace Query
variable {config : Config} {input : List UInt8} {doc : Document}

/-- The segments of an input with a key, with their offsets. -/
def keyed (input : List UInt8) : List (Nat × List UInt8) :=
  (locatedIn input).filter fun p => !(Pair.ofSegment p.2).key.isEmpty

/-- What the segment at an offset asks for: its key is read as the path, and the bytes behind its
first `=` as the text. -/
structure Asks (config : Config) (p : Nat × List UInt8) (write : KeyPath × String) : Prop where
  key : (Pair.ofSegment p.2).readKey config p.1 = .ok write.1
  value : Percent.decode config.spaceAsPlus
    (p.1 + (p.2.length - (Pair.ofSegment p.2).value.length)) (Pair.ofSegment p.2).value =
      .ok write.2

theorem forall₂_asks {segments : List (Nat × List UInt8)}
    {writes : List (Option (KeyPath × String))}
    (h : segments.mapM (fun p => readWrite config p.1 p.2) = .ok writes) :
    List.Forall₂ (Asks config)
      (segments.filter fun p => !(Pair.ofSegment p.2).key.isEmpty) writes.reduceOption := by
  induction Result.mapM_eq_ok.1 h with
  | nil => exact .nil
  | @cons p w segments writes hw hrest ih =>
    have ih := ih (Result.mapM_eq_ok.2 hrest)
    obtain ⟨text, htext, ⟨hkey, rfl⟩ | ⟨hkey, path, hpath, rfl⟩⟩ := readWrite_eq_ok.1 hw
    · rw [List.filter_cons_of_neg (by simp [hkey]), List.reduceOption_cons_of_none]
      exact ih
    · rw [List.filter_cons_of_pos (by simpa using hkey), List.reduceOption_cons_of_some]
      exact .cons ⟨hpath, htext⟩ ih

/-- The texts of a document that a query spells are those of its pairs with a key, each in a place
of its own: where the key leads in the document that the pairs before make. There is no empty list,
no empty map and no empty key besides. -/
theorem parse_places (h : parse config input = .ok doc) :
    ∃ writes placed : List (KeyPath × String),
      List.Forall₂ (Asks config) (keyed input) writes ∧
      doc.leaves.Perm placed ∧ (placed.map Prod.fst).Nodup ∧ placed.length = writes.length ∧
      (∀ front write back, writes = front ++ write :: back →
        ∃ before, Tree.ofWrites front = .ok before ∧
          placed[front.length]? = some (before.finish.locate write.1, write.2)) ∧
      (∀ leaf ∈ placed, doc.at? leaf.1 = some (.scalar leaf.2)) ∧
      doc.Filled ∧ doc.root.Everywhere Value.Named := by
  obtain ⟨-, -, tree, hread, rfl⟩ := parse_eq_ok.1 h
  obtain ⟨reads, hreads, htree⟩ := readAll_eq_ok.1 hread
  have holds := Tree.holds_of_ofWrites htree
  have hperm := Tree.leaves_finish_perm_placed htree
  refine ⟨reads.reduceOption, Tree.placed reads.reduceOption, forall₂_asks hreads, hperm,
    Tree.nodup_placed htree, ?_, ?_, ?_, holds.filled_finish, ?_⟩
  · rw [← hperm.length_eq, Tree.length_leaves_finish htree]
  · rintro front write back hsplit
    rw [hsplit] at htree ⊢
    exact Tree.exists_before htree
  · exact fun leaf hleaf => Document.at?_of_mem_leaves holds.distinct_finish (hperm.mem_iff.2 hleaf)
  · refine Value.everywhere_keys_of_leaves (fun c hc => ?_) fun leaf hleaf key hkey => ?_
    · obtain ⟨e, he, rfl⟩ := List.mem_map.1 hc
      exact holds.filled_finish e he
    · obtain ⟨l, hl, rfl⟩ := Document.exists_of_mem_root_leaves hleaf
      exact ((Document.readable_of_parse h).1 l hl key hkey).1

/-- Of four segments two are not empty and have a key. -/
theorem places_of_appends :
    parse {} (Utf8.encode "?a[]=x&=skipped&&a[]=y") =
        .ok ⟨[("a", .list [.scalar "x", .scalar "y"])]⟩ ∧
      ∃ writes, List.Forall₂ (Asks {}) (keyed (Utf8.encode "?a[]=x&=skipped&&a[]=y")) writes ∧
        writes.length = 2 := by
  have h : parse {} (Utf8.encode "?a[]=x&=skipped&&a[]=y") =
      .ok ⟨[("a", .list [.scalar "x", .scalar "y"])]⟩ := by cbv
  obtain ⟨writes, placed, hasks, hperm, -, hlen, -⟩ := parse_places h
  have hplaced : placed.length = 2 := hperm.length_eq.symm
  exact ⟨h, writes, hasks, hlen ▸ hplaced⟩

end Query

end NestedQuery
