import Mathlib
import NestedQuery.Proofs.Parsed
import NestedQuery.Proofs.Pruning

/-!
# Round trips

Which documents are read back from their canonical query: `parse_stringify_iff_spellable` for any
document, and `parse_stringify_of_parse` for one that a query spells, which is read back within the
limits of that query. Both rest on `parse_stringify_of_spellable` and its converse
`spellable_of_parse_stringify`.
-/

namespace NestedQuery

namespace Value

/-- Neither a key nor a text holds a control character. -/
def Printable (v : Value) : Prop :=
  (∀ key ∈ v.keys, hasControl key = false) ∧ ∀ text ∈ v.text?, hasControl text = false

/-- No key is empty. -/
def Named (v : Value) : Prop :=
  ∀ key ∈ v.keys, key ≠ ""

@[simp] theorem printable_scalar {text : String} :
    (scalar text).Printable ↔ hasControl text = false := by
  simp [Printable, keys, text?]

@[simp] theorem printable_list (items : List Value) : (list items).Printable := by
  simp [Printable, keys, text?]

@[simp] theorem printable_map {entries : List (String × Value)} :
    (map entries).Printable ↔ ∀ e ∈ entries, hasControl e.1 = false := by
  simp [Printable, keys, text?, Entries.keys]

end Value

namespace Document

/-- What a document must be so that its canonical query spells its texts. -/
structure Spellable (doc : Document) : Prop where
  /-- No text holds a control character. -/
  text : ∀ leaf ∈ doc.leaves, hasControl leaf.2 = false
  /-- No key on the way to a text holds a control character. -/
  key : ∀ leaf ∈ doc.leaves, ∀ key, .name key ∈ leaf.1.steps → hasControl key = false
  /-- No key on the way to a text is empty. -/
  named : ∀ leaf ∈ doc.leaves, .name "" ∉ leaf.1.steps
  /-- Hollow items come last in every list. -/
  dense : doc.root.Everywhere Value.Dense

/-- No list and no map below the root is empty. -/
def Filled (doc : Document) : Prop :=
  ∀ e ∈ doc.entries, e.2.Everywhere Value.Filled

variable {doc d : Document} {read write : Config}

theorem mem_root_leaves {leaf : KeyPath × String} (h : leaf ∈ doc.leaves) :
    (leaf.1.steps, leaf.2) ∈ doc.root.leaves := by
  rw [← Canonical.leaves_steps]
  exact List.mem_map_of_mem h

theorem exists_of_mem_root_leaves {leaf : List Segment × String} (h : leaf ∈ doc.root.leaves) :
    ∃ l ∈ doc.leaves, (l.1.steps, l.2) = leaf := by
  rw [← Canonical.leaves_steps] at h
  exact List.mem_map.1 h

theorem leaves_eq_of_root (h : d.root.leaves = doc.root.leaves) : d.leaves = doc.leaves := by
  have hinj : Function.Injective fun leaf : KeyPath × String => (leaf.1.steps, leaf.2) := by
    rintro ⟨⟨root, segments⟩, text⟩ ⟨⟨root', segments'⟩, text'⟩ heq
    simp only [KeyPath.steps, Prod.mk.injEq, List.cons.injEq, Segment.name.injEq] at heq
    obtain ⟨⟨rfl, rfl⟩, rfl⟩ := heq
    rfl
  refine List.map_injective_iff.2 hinj ?_
  rw [Canonical.leaves_steps, Canonical.leaves_steps, h]

theorem Spellable.readable_leaves (h : doc.Spellable) (regular : doc.Regular) :
    ∀ leaf ∈ doc.leaves, Readable leaf := by
  refine doc.readable_leaves (regular.mono fun _ h => h.bounded)
    (fun leaf hleaf key hkey => ⟨?_, h.key leaf hleaf key hkey⟩)
    h.text
  rintro rfl
  exact h.named leaf hleaf hkey

theorem Spellable.of_names
    (name : ∀ leaf ∈ doc.leaves, ∀ key, .name key ∈ leaf.1.steps →
      key ≠ "" ∧ hasControl key = false)
    (text : ∀ leaf ∈ doc.leaves, hasControl leaf.2 = false)
    (dense : doc.root.Everywhere Value.Dense) : doc.Spellable :=
  ⟨text, fun leaf hleaf key hkey => (name leaf hleaf key hkey).2,
    fun leaf hleaf hkey => (name leaf hleaf "" hkey).1 rfl, dense⟩

theorem dense_of_filled (filled : doc.Filled) : doc.root.Everywhere Value.Dense := by
  refine .intro trivial fun c hc => ?_
  obtain ⟨e, he, rfl⟩ := List.mem_map.1 hc
  exact Value.dense_of_filled (filled e he)

theorem prune_eq_self (filled : doc.Filled) : doc.prune = doc := by
  rw [prune, Value.pruneEntries_eq_self (fun e he => Value.isHollow_of_filled (filled e he))
    fun e he => Value.prune_eq_self (filled e he)]

theorem key_of_printable (printable : doc.root.Everywhere Value.Printable) :
    ∀ leaf ∈ doc.leaves, ∀ key, .name key ∈ leaf.1.steps → hasControl key = false :=
  fun _ hleaf => Value.key_of_mem_leaves (printable.mono fun _ h => h.1) _ (mem_root_leaves hleaf)

theorem text_of_printable (printable : doc.root.Everywhere Value.Printable) :
    ∀ leaf ∈ doc.leaves, hasControl leaf.2 = false :=
  fun _ hleaf => Value.text_of_mem_leaves (printable.mono fun _ h => h.2) _ (mem_root_leaves hleaf)

theorem spellable_of_filled (filled : doc.Filled) (printable : doc.root.Everywhere Value.Printable)
    (named : doc.root.Everywhere Value.Named) : doc.Spellable where
  text := text_of_printable printable
  key := key_of_printable printable
  named _ hleaf hkey := Value.key_of_mem_leaves named _ (mem_root_leaves hleaf) "" hkey rfl
  dense := dense_of_filled filled

/-- The canonical query of a spellable document reads back as the document without its hollow
parts. -/
theorem parse_stringify_of_spellable (hwr : write.spaceAsPlus = true → read.spaceAsPlus = true)
    (admits : read.Admits doc.leaves) (regular : doc.Regular) (h : doc.Spellable) :
    Query.parseText read (doc.stringify write) = .ok doc.prune := by
  rw [Query.parse_stringify_eq_ok hwr (h.readable_leaves regular) admits,
    ← leaves_eq_of_root (d := doc.prune) (Value.leaves_prune h.dense)]
  refine Tree.ofWrites_leaves (fun e he => ?_) (Value.regular_prune regular)
  rw [prune, Value.pruneEntries_eq] at he
  obtain ⟨e', he', rfl⟩ := List.mem_map.1 he
  exact Value.filled_prune (by simpa using (List.mem_filter.1 he').2)

/-- Whatever the canonical query of a document reads back as, it has no empty name and no control
character. -/
theorem readable_of_parse {input : List UInt8} (h : Query.parse read input = .ok d) :
    (∀ leaf ∈ d.leaves, ∀ key, .name key ∈ leaf.1.steps → key ≠ "" ∧ hasControl key = false) ∧
      ∀ leaf ∈ d.leaves, hasControl leaf.2 = false := by
  obtain ⟨writes, tree, htree, rfl, hwrites, -⟩ := Query.exists_writes_of_parse h
  refine ⟨fun leaf hleaf key hkey => ?_, fun leaf hleaf => ?_⟩ <;>
    obtain ⟨write, hwrite, htext, -, hnames⟩ := Tree.exists_write_of_mem_leaves htree hleaf
  · exact (hwrites write hwrite).1.1 _ (hnames key hkey)
  · rw [htext]
    exact (hwrites write hwrite).1.2

/-- A document whose canonical query reads back with the right texts is spellable. -/
theorem spellable_of_parse_stringify (hwr : write.spaceAsPlus = true → read.spaceAsPlus = true)
    (admits : read.Admits doc.leaves) (regular : doc.Regular)
    (h : Query.parseText read (doc.stringify write) = .ok d)
    (hleaves : ∀ leaf, leaf ∈ d.root.leaves ↔ leaf ∈ doc.prune.root.leaves) : doc.Spellable := by
  obtain ⟨hnames, htexts⟩ := readable_of_parse h
  -- a text of the document is left after pruning, so it has been read, under the same names
  have hread : ∀ leaf ∈ doc.leaves, ∃ left ∈ d.leaves, left.2 = leaf.2 ∧
      ∀ key, .name key ∈ leaf.1.steps → .name key ∈ left.1.steps := fun leaf hleaf => by
    obtain ⟨_, hleft, htext, hkeys⟩ :=
      Value.exists_mem_leaves_prune _ _ (mem_root_leaves hleaf)
    obtain ⟨left, hmem, rfl⟩ := exists_of_mem_root_leaves ((hleaves _).2 hleft)
    exact ⟨left, hmem, htext, hkeys⟩
  have htext : ∀ leaf ∈ doc.leaves, hasControl leaf.2 = false := fun leaf hleaf => by
    obtain ⟨left, hleft, heq, -⟩ := hread leaf hleaf
    exact heq ▸ htexts left hleft
  have hname : ∀ leaf ∈ doc.leaves, ∀ key, .name key ∈ leaf.1.steps →
      key ≠ "" ∧ hasControl key = false := fun leaf hleaf key hkey => by
    obtain ⟨left, hleft, -, hkeys⟩ := hread leaf hleaf
    exact hnames left hleft key (hkeys key hkey)
  refine .of_names hname htext ?_
  have bounded := regular.mono fun _ h => h.bounded
  -- so the query is the run of its writes, each of which stays in its place
  obtain ⟨tree, htree, rfl⟩ := (Query.parse_stringify_eq_ok hwr
    (doc.readable_leaves bounded hname htext) admits).1 h
  refine Value.dense_of_leaves_subset regular fun leaf hleaf => ?_
  obtain ⟨l, hl, rfl⟩ := exists_of_mem_root_leaves hleaf
  refine (hleaves _).1 (Tree.mem_leaves_of_write htree hl fun happend => ?_)
  exact (Value.step_of_mem_leaves bounded _ hleaf _ happend).1 rfl

/-- A document is read back from its canonical query, up to its hollow parts, exactly if it is
spellable. One without empty lists and maps, empty keys and control characters is read back whole.
-/
theorem parse_stringify_iff_spellable (doc : Document) (regular : doc.Regular) {write read : Bool}
    (hwr : write = true → read = true) :
    (Query.parseText { spaceAsPlus := read } (doc.stringify { spaceAsPlus := write }) =
        .ok doc.prune ↔ doc.Spellable) ∧
      (doc.Filled → doc.root.Everywhere Value.Printable →
        doc.root.Everywhere Value.Named →
        Query.parseText { spaceAsPlus := read } (doc.stringify { spaceAsPlus := write }) =
          .ok doc) := by
  have admits := Config.admits_of_unlimited read doc.leaves
  have hspace : Config.spaceAsPlus { spaceAsPlus := write } = true →
      Config.spaceAsPlus { spaceAsPlus := read } = true := hwr
  have forward := parse_stringify_of_spellable hspace admits regular
  refine ⟨⟨fun h => ?_, forward⟩, fun filled printable named => ?_⟩
  · exact spellable_of_parse_stringify hspace admits regular h fun _ => Iff.rfl
  · have h := forward (doc.spellable_of_filled filled printable named)
    rwa [prune_eq_self filled] at h

/-- An empty map behind an item with a text is lost, but does no harm. -/
theorem spellable_of_hollow_last :
    Regular ⟨[("a", .list [.scalar "x", .map []])]⟩ ∧
      Spellable ⟨[("a", .list [.scalar "x", .map []])]⟩ := by
  have regular : Regular ⟨[("a", .list [.scalar "x", .map []])]⟩ := by
    simp [Regular, root, Value.regular_iff, Entries.keys, indexBound]
  have hiff := (parse_stringify_iff_spellable _ regular fun (h : false = true) => h).1
  exact ⟨regular, hiff.1 (by cbv)⟩

/-! ### Documents that queries spell -/

/-- A document that a query spells is read back from its canonical query, within the limits of the
query but for its length. -/
theorem parse_stringify_of_parse {config out : Config} {input : List UInt8} {doc : Document}
    (hlen : input.length ≤ indexBound) (h : Query.parse config input = .ok doc)
    (hspace : out.spaceAsPlus = true → config.spaceAsPlus = true) :
    ∃ again, Query.parseText { config with maxLength := none } (doc.stringify out) = .ok again ∧
      again = doc ∧ again.stringify out = doc.stringify out := by
  obtain ⟨writes, tree, htree, rfl, hwrites, hparams, hcount⟩ := Query.exists_writes_of_parse h
  have holds := Tree.holds_of_ofWrites htree
  have hhistory : (Tree.history writes).length ≤ indexBound := by
    rw [← (Tree.history_resolves writes).length_eq]
    exact hcount.trans hlen
  have regular : tree.finish.Regular :=
    holds.distinct_finish.regular (holds.bounded_finish hhistory)
  have filled : tree.finish.Filled := holds.filled_finish
  have admits : Config.Admits { config with maxLength := none } tree.finish.leaves := by
    refine ⟨rfl, ?_, fun leaf hleaf => ?_⟩
    · rw [Tree.length_leaves_finish htree]
      exact hparams
    · obtain ⟨write, hwrite, -, hdepth, -⟩ := Tree.exists_write_of_mem_leaves htree hleaf
      rw [hdepth]
      exact (hwrites write hwrite).2
  obtain ⟨hnames, htexts⟩ := readable_of_parse h
  have hspace' : out.spaceAsPlus = true →
      Config.spaceAsPlus { config with maxLength := none } = true := hspace
  have hread := parse_stringify_of_spellable hspace' admits regular
    (.of_names hnames htexts (dense_of_filled filled))
  rw [prune_eq_self filled] at hread
  exact ⟨tree.finish, hread, rfl, rfl⟩

/-- Appends are written as indices, which is longer, so the length of the query is no limit. -/
theorem parse_stringify_of_appends :
    let config : Config := { maxLength := some 11, maxParams := some 2, maxDepth := some 1 }
    let doc : Document := ⟨[("a", .list [.scalar "x", .scalar "y"])]⟩
    Query.parse config (Utf8.encode "a[]=x&a[]=y") = .ok doc ∧
      Query.parseText { config with maxLength := none } (doc.stringify {}) = .ok doc := by
  intro config doc
  have h : Query.parse config (Utf8.encode "a[]=x&a[]=y") = .ok doc := by cbv
  obtain ⟨_, hread, rfl, -⟩ := parse_stringify_of_parse (by decide) h
    fun (hspace : Config.spaceAsPlus {} = true) => hspace
  exact ⟨h, hread⟩

end Document

end NestedQuery
