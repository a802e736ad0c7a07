import NestedQuery.Proofs.Strictness

/-!
# Root keys

A write reads and changes the entry of its own root and nothing else (`insert_only`,
`only_of_insert`), so a run of writes goes through exactly if the writes of each root do by
themselves (`exists_ofWrites_iff_forall_root`), and leaves under each root what they leave
(`ofWrites_root`). For queries this is `parse_by_roots`: the pairs of one root neither help nor
disturb those of another.
-/

namespace NestedQuery

namespace Tree
variable {tree tree' : Tree} {writes : List (KeyPath × String)}

/-- The tree with no entry but that of the key. -/
def only (key : String) (tree : Tree) : Tree where
  entries := (tree.entries.lookup key).toList.map (key, ·)

theorem lookup_only (key : String) (tree : Tree) :
    (tree.only key).entries.lookup key = tree.entries.lookup key := by
  rw [only]
  cases tree.entries.lookup key with
  | none => rfl
  | some node => exact List.lookup_cons_self

/-- A write has the same outcome whether there are other roots or not. -/
theorem insert_only (tree : Tree) (path : KeyPath) (text : String) :
    (tree.only path.root).insert path text = only path.root <$> tree.insert path text := by
  rw [insert_eq, insert_eq, Entries.update?_eq_map_put, Entries.update?_eq_map_put, lookup_only]
  cases Node.grow text path.segments (tree.entries.lookup path.root) with
  | none => rfl
  | some node =>
    simp only [Option.map_some, Option.elim_some, Except.map_ok, only, Entries.lookup_put_self]
    cases tree.entries.lookup path.root with
    | none => rfl
    | some old => simp [Entries.put]

theorem exists_put_of_insert {path : KeyPath} {text : String}
    (h : tree.insert path text = .ok tree') :
    ∃ node, tree'.entries = Entries.put path.root node tree.entries := by
  rw [insert_eq, Entries.update?_eq_map_put] at h
  cases hnode : Node.grow text path.segments (tree.entries.lookup path.root) with
  | none => rw [hnode] at h; cases h
  | some node =>
    rw [hnode] at h
    cases h
    exact ⟨node, rfl⟩

/-- A write leaves the entries of all other roots as they are. -/
theorem only_of_insert {path : KeyPath} {text : String} (h : tree.insert path text = .ok tree')
    {key : String} (hkey : key ≠ path.root) : tree'.only key = tree.only key := by
  obtain ⟨node, hentries⟩ := exists_put_of_insert h
  rw [only, only, hentries, Entries.lookup_put_of_ne hkey]

theorem keys_of_insert {path : KeyPath} {text : String} (h : tree.insert path text = .ok tree') :
    Entries.keys tree'.entries =
      if path.root ∈ Entries.keys tree.entries then Entries.keys tree.entries
      else Entries.keys tree.entries ++ [path.root] := by
  obtain ⟨node, hentries⟩ := exists_put_of_insert h
  rw [hentries, Entries.keys_put]

/-- The writes under one root. -/
def ofRoot (key : String) (writes : List (KeyPath × String)) : List (KeyPath × String) :=
  writes.filter (·.1.root = key)

theorem ofRoot_append_self (writes : List (KeyPath × String)) (write : KeyPath × String) :
    ofRoot write.1.root (writes ++ [write]) = ofRoot write.1.root writes ++ [write] := by
  simp [ofRoot]

theorem ofRoot_append_of_ne {key : String} (writes : List (KeyPath × String))
    {write : KeyPath × String} (h : key ≠ write.1.root) :
    ofRoot key (writes ++ [write]) = ofRoot key writes := by
  simp [ofRoot, Ne.symm h]

/-- The writes of one root leave under it what all writes together do. -/
theorem ofWrites_root (h : ofWrites writes = .ok tree) (key : String) :
    ofWrites (ofRoot key writes) = .ok (tree.only key) := by
  induction writes using List.reverseRecOn generalizing tree with
  | nil => cases h; rfl
  | append_singleton writes write ih =>
    rw [ofWrites_append_singleton] at h
    obtain ⟨before, hbefore, hinsert⟩ := Result.bind_eq_ok.1 h
    by_cases hkey : key = write.1.root
    · subst hkey
      rw [ofRoot_append_self, ofWrites_append_singleton, ih hbefore, Result.ok_bind, insert_only,
        hinsert]
      rfl
    · rw [ofRoot_append_of_ne writes hkey, ih hbefore, only_of_insert hinsert hkey]

/-- The roots stand in the order of their first writes. -/
theorem keys_of_ofWrites (h : ofWrites writes = .ok tree) :
    Entries.keys tree.entries = (writes.map (·.1.root)).eraseDups := by
  induction writes using List.reverseRecOn generalizing tree with
  | nil => cases h; rfl
  | append_singleton writes write ih =>
    rw [ofWrites_append_singleton] at h
    obtain ⟨before, hbefore, hinsert⟩ := Result.bind_eq_ok.1 h
    rw [keys_of_insert hinsert, ih hbefore, List.map_append, List.eraseDups_append,
      List.map_singleton]
    by_cases hroot : write.1.root ∈ writes.map (·.1.root)
    · rw [if_pos (List.mem_eraseDups.2 hroot)]
      simp [List.removeAll, hroot]
    · rw [if_neg (mt List.mem_eraseDups.1 hroot)]
      simp [List.removeAll, hroot, List.eraseDups_cons]

/-- All writes go through if those of each root do. -/
theorem exists_ofWrites_of_root
    (h : ∀ key, ∃ tree, ofWrites (ofRoot key writes) = .ok tree) :
    ∃ tree, ofWrites writes = .ok tree := by
  induction writes using List.reverseRecOn with
  | nil => exact ⟨empty, rfl⟩
  | append_singleton writes write ih =>
    have hlast := h write.1.root
    rw [ofRoot_append_self, ofWrites_append_singleton] at hlast
    obtain ⟨last, hlast⟩ := hlast
    obtain ⟨alone, halone, hinsert⟩ := Result.bind_eq_ok.1 hlast
    obtain ⟨before, hbefore⟩ := ih fun key => by
      by_cases hkey : key = write.1.root
      · exact ⟨alone, hkey ▸ halone⟩
      · rw [← ofRoot_append_of_ne writes hkey]
        exact h key
    -- the last write meets the same entry in the tree of all writes as in that of its root
    rw [ofWrites_root hbefore] at halone
    cases halone
    rw [insert_only, Result.map_eq_ok] at hinsert
    obtain ⟨tree, hinsert, -⟩ := hinsert
    exact ⟨tree, by rw [ofWrites_append_singleton, hbefore]; exact hinsert⟩

/-- The only entry under a root that a document has is the document of that root. -/
theorem finish_only (h : ofWrites writes = .ok tree) {entry : String × Value}
    (hentry : entry ∈ tree.finish.entries) : (tree.only entry.1).finish = ⟨[entry]⟩ := by
  have hdistinct : (Entries.keys tree.finish.entries).Nodup := by
    have := (holds_of_ofWrites h).distinct_finish
    exact (Value.Everywhere.map_iff.1 this).1
  have hlookup := Entries.lookup_of_mem hdistinct hentry
  rw [finish_eq] at hlookup ⊢
  rw [Node.lookup_valueEntries] at hlookup
  obtain ⟨node, hnode, hvalue⟩ := Option.map_eq_some_iff.1 hlookup
  rw [only, hnode]
  simp [Node.valueEntries, hvalue]

end Tree

namespace Query
variable {config : Config} {input : List UInt8}

/-- The root that the key of a pair decodes to. -/
def root? (config : Config) (segment : List UInt8) : Option String :=
  (write? config segment).map (·.1.root)

/-- The roots of a query in the order in which they first appear. -/
def roots (config : Config) (input : List UInt8) : List String :=
  ((spellings input).filterMap (root? config)).eraseDups

/-- The query of just the pairs with this root. -/
def subquery (config : Config) (root : String) (input : List UInt8) : List UInt8 :=
  List.intercalate [Byte.ampersand] ((spellings input).filter (root? config · = some root))

theorem filterMap_write?_filter (root : String) (parts : List (List UInt8)) :
    (parts.filter (root? config · = some root)).filterMap (write? config) =
      Tree.ofRoot root (parts.filterMap (write? config)) := by
  rw [Tree.ofRoot, List.filterMap_filter, List.filter_filterMap]
  refine List.filterMap_congr fun segment _ => ?_
  rw [root?]
  cases write? config segment with
  | none => simp
  | some write => simp [Option.filter_some]

theorem parse_subquery (h : Clean input) (root : String) :
    parse config.unlimited (subquery config root input) =
      Tree.finish <$>
        Tree.ofWrites (Tree.ofRoot root ((spellings input).filterMap (write? config))) := by
  have hparts : ∀ p ∈ (spellings input).filter (root? config · = some root),
      p ∈ spellings input := fun p hp => (List.mem_filter.1 hp).1
  obtain ⟨hclean, hspellings⟩ := clean_intercalate h hparts
  rw [subquery, parse_of_clean hclean, hspellings, filterMap_write?_filter]

theorem roots_eq (config : Config) (input : List UInt8) :
    roots config input =
      (((spellings input).filterMap (write? config)).map (·.1.root)).eraseDups := by
  rw [List.map_filterMap]
  rfl

/-- The pairs of a clean query fall apart by root. It is accepted if and only if, for each root, the
query of just the pairs with this root is; then its document has the entries of the documents of
those queries, in the order in which the roots first appear. -/
theorem parse_by_roots (config : Config) {input : List UInt8} (h : Clean input) :
    ((∃ doc, parse config.unlimited input = .ok doc) ↔
      ∀ root ∈ roots config input,
        ∃ doc, parse config.unlimited (subquery config root input) = .ok doc) ∧
    ∀ doc, parse config.unlimited input = .ok doc →
      Entries.keys doc.entries = roots config input ∧
        ∀ entry ∈ doc.entries,
          parse config.unlimited (subquery config entry.1 input) = .ok ⟨[entry]⟩ := by
  rw [parse_of_clean h, roots_eq]
  generalize hwrites : (spellings input).filterMap (write? config) = writes
  have hsub (root : String) : parse config.unlimited (subquery config root input) =
      Tree.finish <$> Tree.ofWrites (Tree.ofRoot root writes) := by
    rw [parse_subquery h, hwrites]
  simp only [hsub]
  constructor
  · simp only [Result.exists_map_eq_ok]
    constructor
    · rintro ⟨tree, htree⟩ root -
      exact ⟨_, Tree.ofWrites_root htree root⟩
    · intro hroots
      refine Tree.exists_ofWrites_of_root fun root => ?_
      by_cases hroot : root ∈ writes.map (·.1.root)
      · exact hroots root (List.mem_eraseDups.2 hroot)
      -- no pair has this root, so its query is empty
      · have hnil : Tree.ofRoot root writes = [] := by
          simpa [Tree.ofRoot, List.filter_eq_nil_iff] using hroot
        rw [hnil]
        exact ⟨.empty, rfl⟩
  · intro doc hdoc
    obtain ⟨tree, htree, rfl⟩ := Result.map_eq_ok.1 hdoc
    refine ⟨?_, fun entry hentry => ?_⟩
    · rw [← Tree.keys_of_ofWrites htree, Tree.finish_eq, Node.keys_valueEntries]
    · rw [Tree.ofWrites_root htree, Except.map_ok, Tree.finish_only htree hentry]

/-- Pairs of two roots take turns, and a root is the same however it is escaped. -/
theorem parse_by_roots_in_turns :
    let doc : Document := ⟨[("a", .list [.scalar "1", .scalar "3"]), ("b", .scalar "2")]⟩
    Clean (Utf8.encode "a[]=1&b=2&%61[]=3") ∧
      parse {} (Utf8.encode "a[]=1&b=2&%61[]=3") = .ok doc ∧
      roots {} (Utf8.encode "a[]=1&b=2&%61[]=3") = ["a", "b"] ∧
      parse {} (subquery {} "a" (Utf8.encode "a[]=1&b=2&%61[]=3")) =
        .ok ⟨[("a", .list [.scalar "1", .scalar "3"])]⟩ := by
  intro doc
  have hread : parse {} (Utf8.encode "a[]=1&b=2&%61[]=3") = .ok doc := by cbv
  have hclean := clean_of_parse {} hread
  obtain ⟨hroots, hentries⟩ := (parse_by_roots {} hclean).2 doc hread
  have ha := hentries ("a", .list [.scalar "1", .scalar "3"]) (by simp [doc])
  exact ⟨hclean, hread, hroots.symm, ha⟩

end Query

end NestedQuery
