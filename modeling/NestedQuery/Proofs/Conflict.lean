import NestedQuery.Proofs.Growth
import NestedQuery.Proofs.Writes

/-!
# Which writes a tree takes

`Tree.history` resolves the key paths of a run of writes one after another. A tree that has taken
the writes holds just their trails (`Holds.insert` for one write, `holds_of_ofWrites` for a run). So
whether it takes the next write can be read off the trails of the earlier ones:
`insert_eq_duplicateKey_iff`, and for a whole run `exists_ofWrites_iff`.
-/

namespace NestedQuery.Tree

/-- The tree as a node; there is none before the first write. -/
def node? (tree : Tree) : Option Node :=
  if tree.entries.isEmpty then none else some (.map tree.entries)

def record (earlier : List (Trail × String)) (write : KeyPath × String) : List (Trail × String) :=
  earlier ++ [(Trail.resolve (earlier.map Prod.fst) write.1, write.2)]

theorem record_fst_perm (earlier : List (Trail × String)) (write : KeyPath × String) :
    ((record earlier write).map Prod.fst).Perm
      (Trail.resolve (earlier.map Prod.fst) write.1 :: earlier.map Prod.fst) := by
  rw [record, List.map_append]
  exact List.perm_append_singleton _ _

/-- The trails of a run of writes, with the texts written. -/
def history (writes : List (KeyPath × String)) : List (Trail × String) :=
  writes.foldl record []

/-- The tree holds these texts and no others. -/
structure Holds (tree : Tree) (history : List (Trail × String)) : Prop where
  grown : ∀ node ∈ tree.node?, node.Grown
  trails : (Node.trails? tree.node?).Perm history

variable {tree tree' : Tree} {path : KeyPath} {text : String}

theorem node?_of_ne_nil (h : tree.entries ≠ []) : tree.node? = some (.map tree.entries) :=
  if_neg (by simpa using h)

theorem insert_eq (tree : Tree) (path : KeyPath) (text : String) :
    tree.insert path text =
      (Entries.update? path.root (Node.grow text path.segments) tree.entries).elim
        (.error (.duplicateKey path.render)) fun entries => .ok ⟨entries⟩ := by
  simp only [insert, Entries.update?_eq_map_put]
  cases tree.entries.lookup path.root with
  | none =>
    simp only [Node.grow]
    cases Node.build text path.segments <;> rfl
  | some child =>
    simp only [Node.grow]
    cases Node.insert text path.segments child <;> rfl

theorem eq_duplicateKey_of_insert {e : Error} (h : tree.insert path text = .error e) :
    e = .duplicateKey path.render := by
  rw [insert_eq] at h
  cases hentries : Entries.update? path.root (Node.grow text path.segments) tree.entries with
  | none => rw [hentries] at h; cases h; rfl
  | some entries => rw [hentries] at h; cases h

/-- A write into a tree is one into its root, which is a map. -/
theorem grow_steps (tree : Tree) (path : KeyPath) (text : String) :
    Node.grow text path.steps tree.node? =
      (Entries.update? path.root (Node.grow text path.segments) tree.entries).map .map := by
  unfold node?
  split
  · rename_i h
    rw [List.isEmpty_iff.1 h, KeyPath.steps, Node.grow_cons, Entries.update?, Option.map_map]
    rfl
  · rw [KeyPath.steps, Node.grow_cons, Entries.update?_eq_map_put, Option.map_map]
    rfl

theorem insert_eq_ok_iff :
    tree.insert path text = .ok tree' ↔
      Node.grow text path.steps tree.node? = some (.map tree'.entries) := by
  rw [grow_steps, insert_eq]
  cases Entries.update? path.root (Node.grow text path.segments) tree.entries with
  | none => simp
  | some entries =>
    simp only [Option.elim_some, Except.ok.injEq, Option.map_some, Option.some.injEq,
      Node.map.injEq]
    exact ⟨fun h => h ▸ rfl, fun h => by rw [h]⟩

theorem node?_of_insert (h : tree.insert path text = .ok tree') :
    tree'.node? = some (.map tree'.entries) := by
  rw [insert_eq_ok_iff, grow_steps, Entries.update?_eq_map_put, Option.map_map] at h
  obtain ⟨node, -, hnode⟩ := Option.map_eq_some_iff.1 h
  refine node?_of_ne_nil ?_
  rw [← Node.map.inj hnode]
  exact Entries.put_ne_nil path.root node tree.entries

theorem insert_eq_error_iff :
    tree.insert path text = .error (.duplicateKey path.render) ↔
      Node.grow text path.steps tree.node? = none := by
  rw [grow_steps, insert_eq]
  cases Entries.update? path.root (Node.grow text path.segments) tree.entries <;> simp

/-! ### The trails in a tree -/

theorem holds_empty : empty.Holds [] where
  grown := by simp [node?, empty]
  trails := .refl _

theorem Holds.insert {history : List (Trail × String)} (h : tree.Holds history)
    (hinsert : tree.insert path text = .ok tree') : tree'.Holds (record history (path, text)) := by
  obtain ⟨hgrown, hperm⟩ := Node.trails_of_grow h.grown (insert_eq_ok_iff.1 hinsert)
  have hnode := node?_of_insert hinsert
  refine ⟨fun node hnode' => ?_, ?_⟩
  · rw [hnode] at hnode'
    cases hnode'
    exact hgrown
  · rw [hnode, record, Trail.resolve_perm (h.trails.map Prod.fst).symm, Trail.resolve]
    exact (hperm.trans (h.trails.cons _)).trans (List.perm_append_singleton _ _).symm

theorem ofWrites_append_singleton (writes : List (KeyPath × String)) (write : KeyPath × String) :
    ofWrites (writes ++ [write]) =
      ofWrites writes >>= fun tree => tree.insert write.1 write.2 := by
  simp [ofWrites]

theorem history_append_singleton (writes : List (KeyPath × String)) (write : KeyPath × String) :
    history (writes ++ [write]) = record (history writes) write :=
  List.foldl_append

theorem holds_of_ofWrites {writes : List (KeyPath × String)} (h : ofWrites writes = .ok tree) :
    tree.Holds (history writes) := by
  induction writes using List.reverseRecOn generalizing tree with
  | nil => cases h; exact holds_empty
  | append_singleton writes write ih =>
    rw [ofWrites_append_singleton, Result.bind_eq_ok] at h
    obtain ⟨before, hbefore, hinsert⟩ := h
    rw [history_append_singleton]
    exact (ih hbefore).insert hinsert

/-! ### Which writes are taken -/

/-- A write into a tree succeeds if it does as one into the root. -/
theorem exists_insert_iff :
    (∃ tree', tree.insert path text = .ok tree') ↔
      ∃ node, Node.grow text path.steps tree.node? = some node := by
  simp only [insert_eq_ok_iff]
  constructor
  · rintro ⟨tree', h⟩
    exact ⟨_, h⟩
  · rintro ⟨node, h⟩
    rw [grow_steps] at h ⊢
    obtain ⟨entries, hentries, -⟩ := Option.map_eq_some_iff.1 h
    exact ⟨⟨entries⟩, by rw [hentries]; rfl⟩

theorem Holds.grow_eq_none_iff {history : List (Trail × String)} (h : tree.Holds history)
    (path : KeyPath) (text : String) :
    Node.grow text path.steps tree.node? = none ↔
      Trail.Clash (history.map Prod.fst) (Trail.resolve (history.map Prod.fst) path) := by
  have hperm := h.trails.map Prod.fst
  rw [Node.grow_eq_none_iff _ _ h.grown, Trail.clash_perm hperm, Trail.resolveFrom_perm hperm,
    Trail.resolve]

theorem Holds.exists_insert {history : List (Trail × String)} (h : tree.Holds history)
    (path : KeyPath) (text : String)
    (hclash : ¬ Trail.Clash (history.map Prod.fst) (Trail.resolve (history.map Prod.fst) path)) :
    ∃ tree', tree.insert path text = .ok tree' := by
  rw [← h.grow_eq_none_iff path text] at hclash
  exact exists_insert_iff.2 (Option.ne_none_iff_exists'.1 hclash)

/-- After writes that were all taken, the next one is a duplicate exactly if its trail clashes with
theirs, and is taken otherwise. -/
theorem insert_eq_duplicateKey_iff {writes : List (KeyPath × String)}
    (h : ofWrites writes = .ok tree) (path : KeyPath) (text : String) :
    let earlier := (history writes).map Prod.fst
    (tree.insert path text = .error (.duplicateKey path.render) ↔
      Trail.Clash earlier (Trail.resolve earlier path)) ∧
    (¬ Trail.Clash earlier (Trail.resolve earlier path) →
      ∃ tree', tree.insert path text = .ok tree') :=
  ⟨insert_eq_error_iff.trans ((holds_of_ofWrites h).grow_eq_none_iff path text),
    (holds_of_ofWrites h).exists_insert path text⟩

/-- An index clashes in a list that an append has made. -/
theorem clash_index_after_append :
    ofWrites [(⟨"a", [.append]⟩, "x")] = .ok ⟨[("a", .list .append #[.leaf "x"])]⟩ ∧
      Trail.Clash [[.name "a", .append 0]] [.name "a", .index 0] := by
  have h : ofWrites [(⟨"a", [.append]⟩, "x")] = .ok ⟨[("a", .list .append #[.leaf "x"])]⟩ := rfl
  exact ⟨h, (insert_eq_duplicateKey_iff h ⟨"a", [.index 0]⟩ "y").1.1 rfl⟩

/-- A run of writes is taken exactly if none of them clashes with those before it. -/
theorem exists_ofWrites_iff {writes : List (KeyPath × String)} :
    (∃ tree, ofWrites writes = .ok tree) ↔
      ∀ front write, front ++ [write] <+: writes →
        ¬ Trail.Clash ((history front).map Prod.fst)
          (Trail.resolve ((history front).map Prod.fst) write.1) := by
  -- from the end: the last write meets the history of all the others
  induction writes using List.reverseRecOn with
  | nil => simp [ofWrites, pure, Except.pure]
  | append_singleton writes last ih =>
    rw [ofWrites_append_singleton]
    constructor
    · rintro ⟨tree, h⟩ front write hp
      obtain ⟨before, hbefore, hinsert⟩ := Result.bind_eq_ok.1 h
      rcases List.prefix_concat_iff.1 hp with heq | hp
      · obtain ⟨rfl, hlast⟩ := List.append_inj' heq rfl
        cases hlast
        rw [← (holds_of_ofWrites hbefore).grow_eq_none_iff last.1 last.2,
          insert_eq_ok_iff.1 hinsert]
        nofun
      · exact ih.1 ⟨before, hbefore⟩ front write hp
    · intro h
      obtain ⟨before, hbefore⟩ := ih.2 fun front write hp =>
        h front write (hp.trans (List.prefix_append _ _))
      obtain ⟨tree, htree⟩ := (holds_of_ofWrites hbefore).exists_insert last.1 last.2
        (h writes last (List.prefix_refl _))
      exact ⟨tree, by rw [hbefore]; exact htree⟩

end NestedQuery.Tree
