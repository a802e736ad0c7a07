import NestedQuery.Proofs.CanonicalQuery
import NestedQuery.Proofs.Grammar
import NestedQuery.Proofs.Regrow

/-!
# Documents that queries spell

What is known of a document because a query spells it. Each of its texts goes back to a segment of
the query that asks for it (`exists_write_of_mem_leaves`), and such a write has no empty name, no
control character and a key within the depth limit (`readable_of_readWrite`); no list and no map
is empty (`Holds.filled_finish`).
-/

namespace NestedQuery

/-! ### What a key reads as -/

/-- A group that some content between brackets is read as. -/
def RawSegment.WellFormed : RawSegment → Prop
  | .name content _ => content ≠ []
  | .index position => position < indexBound
  | .append => True

namespace RawSegment

theorem wellFormed_classify (content : List UInt8) (position : Nat) :
    (classify content position).WellFormed := by
  unfold classify
  split
  · trivial
  · rename_i hne
    split
    · rename_i hindex
      simp only [Bool.and_eq_true, decide_eq_true_eq] at hindex
      exact hindex.2
    · simpa [WellFormed] using hne

theorem spellable_of_decode {raw : RawSegment} (h : raw.WellFormed) {read : Bool} {offset : Nat}
    {s : Segment} (hs : raw.decode read offset = .ok s) : s.Spellable := by
  cases raw with
  | name content position =>
    obtain ⟨text, htext, rfl⟩ := Result.map_eq_ok.1 hs
    exact ⟨Percent.ne_empty_of_decode htext h, Percent.hasControl_of_decode htext⟩
  | index position => cases hs; exact h
  | append => cases hs; trivial

end RawSegment

namespace RawKeyPath

theorem wellFormed_of_groups {position : Nat} {bytes : List UInt8} {raw : List RawSegment}
    (h : groups position bytes = .ok raw) : ∀ s ∈ raw, s.WellFormed := by
  refine groups_induction (P := fun _ _ raw => ∀ s ∈ raw, s.WellFormed) (by simp)
    (fun position content _ raw _ ih => ?_) h
  exact List.forall_mem_cons.2 ⟨RawSegment.wellFormed_classify content (position + 1), ih⟩

theorem wellFormed_of_tokenize {key : List UInt8} {raw : RawKeyPath}
    (h : tokenize key = .ok raw) : raw.root ≠ [] ∧ ∀ s ∈ raw.segments, s.WellFormed := by
  rw [tokenize] at h
  split at h
  · cases h
  · rename_i hne
    obtain ⟨segments, hsegments, h⟩ := Result.bind_eq_ok.1 h
    cases h
    exact ⟨by simpa using hne, wellFormed_of_groups hsegments⟩

/-- A key that decodes has names that are not empty and hold no control character. -/
theorem spellable_of_decode {raw : RawKeyPath} (hroot : raw.root ≠ [])
    (hsegments : ∀ s ∈ raw.segments, s.WellFormed) {read : Bool} {offset : Nat} {path : KeyPath}
    (h : raw.decode read offset = .ok path) : ∀ s ∈ path.steps, s.Spellable := by
  obtain ⟨root, hdecode, h⟩ := Result.bind_eq_ok.1 h
  obtain ⟨segments, hmap, h⟩ := Result.bind_eq_ok.1 h
  cases h
  rintro s (_ | ⟨_, hs⟩)
  · exact ⟨Percent.ne_empty_of_decode hdecode hroot, Percent.hasControl_of_decode hdecode⟩
  · obtain ⟨raw', hraw, hs⟩ := Result.exists_of_mapM_eq_ok hmap s hs
    exact RawSegment.spellable_of_decode (hsegments raw' hraw) hs

end RawKeyPath

namespace Query
variable {config : Config}

/-- A segment asks for no write that the canonical query could not ask for. -/
theorem readable_of_readWrite {offset : Nat} {segment : List UInt8} {write : KeyPath × String}
    (h : readWrite config offset segment = .ok (some write)) :
    Readable write ∧ Config.exceeded? config.maxDepth write.1.depth = none := by
  obtain ⟨text, htext, ⟨-, hnone⟩ | ⟨-, path, hpath, hsome⟩⟩ := readWrite_eq_ok.1 h
  · cases hnone
  · cases hsome
    obtain ⟨raw, hraw, hdepth, hdecode⟩ := Pair.readKey_eq_ok.1 hpath
    obtain ⟨hroot, hsegments⟩ := RawKeyPath.wellFormed_of_tokenize hraw
    have hspellable := RawKeyPath.spellable_of_decode hroot hsegments hdecode
    refine ⟨⟨hspellable, Percent.hasControl_of_decode htext⟩, ?_⟩
    rwa [KeyPath.depth, RawKeyPath.length_of_decode hdecode]

/-! ### How many writes there are -/

theorem exceeded?_mono {limit : Option Nat} {m n : Nat} (hmn : m ≤ n)
    (h : Config.exceeded? limit n = none) : Config.exceeded? limit m = none := by
  cases limit with
  | none => rfl
  | some limit =>
    simp only [Config.exceeded?, Option.filter_some, decide_eq_true_eq, ite_eq_right_iff,
      reduceCtorEq, imp_false, Nat.not_lt] at h ⊢
    omega

theorem countP_cons_le (segment : List UInt8) (segments : List (List UInt8)) :
    (segment :: segments).countP (!·.isEmpty) ≤
      segments.countP (!·.isEmpty) + segment.length := by
  rw [List.countP_cons]
  cases segment <;> simp

/-- A query has at most as many segments that are not empty as bytes. -/
theorem countP_segments_le (bytes : List UInt8) :
    (segments bytes).countP (!·.isEmpty) ≤ bytes.length := by
  -- a segment after the first counts for the `&` in front of it, the first for its bytes
  have walk : (split bytes).2.countP (!·.isEmpty) + (split bytes).1.length ≤ bytes.length := by
    induction bytes with
    | nil => exact Nat.le_refl _
    | cons b bytes ih =>
      rw [split_cons]
      split
      · have := countP_cons_le (split bytes).1 (split bytes).2
        simp only [List.length_cons, List.length_nil]
        omega
      · simp only [List.length_cons]
        omega
  exact (countP_cons_le _ _).trans walk

theorem length_body_le (input : List UInt8) : (body input).1.length ≤ input.length := by
  cases input with
  | nil => exact Nat.le_refl _
  | cons b rest =>
    rw [body]
    split <;> simp

/-- A document that a query spells grows from writes within the limits. -/
theorem exists_writes_of_parse {input : List UInt8} {doc : Document}
    (h : parse config input = .ok doc) :
    ∃ writes tree, Tree.ofWrites writes = .ok tree ∧ tree.finish = doc ∧
      (∀ write ∈ writes, Readable write ∧
        Config.exceeded? config.maxDepth write.1.depth = none) ∧
      Config.exceeded? config.maxParams writes.length = none ∧ writes.length ≤ input.length := by
  obtain ⟨-, hparams, tree, htree, hfinish⟩ := parse_eq_ok.1 h
  obtain ⟨writes, hwrites, htree⟩ := readAll_eq_ok.1 htree
  have hlen : writes.reduceOption.length ≤
      (segments (body input).1).countP (!·.isEmpty) := by
    refine (List.reduceOption_length_le _).trans_eq ?_
    rw [← (Result.mapM_eq_ok.1 hwrites).length_eq, List.countP_eq_length_filter,
      ← map_located (body input).2, List.length_map]
  refine ⟨writes.reduceOption, tree, htree, hfinish, fun write hwrite => ?_,
    exceeded?_mono hlen (checkParams_eq_ok.1 hparams),
    hlen.trans ((countP_segments_le _).trans (length_body_le input))⟩
  obtain ⟨p, -, hp⟩ := Result.exists_of_mapM_eq_ok hwrites _ (List.reduceOption_mem_iff.1 hwrite)
  exact readable_of_readWrite hp

end Query

/-! ### Where the texts of a tree come from -/

namespace Trail

/-- The trail takes the segments of the path in turn. -/
def Resolves (path : List Segment) (t : Trail) : Prop :=
  List.Forall₂ (fun s hop => ∃ slots, s.resolve slots = hop) path t

theorem resolves_resolveFrom (earlier : List Trail) (q path : List Segment) :
    Resolves path (resolveFrom earlier q path) := by
  induction path generalizing q with
  | nil => exact .nil
  | cons s path ih => exact .cons ⟨_, rfl⟩ (ih _)

theorem Resolves.mem_of_name {path : List Segment} {t : Trail} (h : Resolves path t)
    {key : String} (hkey : .name key ∈ t.address) : .name key ∈ path := by
  induction h with
  | nil => cases hkey
  | @cons s hop path t hs _ ih =>
    obtain ⟨slots, rfl⟩ := hs
    rcases List.mem_cons.1 hkey with hkey | hkey
    · cases s with
      | name => cases hkey; exact List.mem_cons_self ..
      | index | append => cases hkey
    · exact List.mem_cons_of_mem _ (ih hkey)

/-- A path without appends is its own address. -/
theorem Resolves.address_eq {path : List Segment} {t : Trail} (h : Resolves path t)
    (happend : .append ∉ path) : t.address = path := by
  induction h with
  | nil => rfl
  | @cons s hop path t hs _ ih =>
    obtain ⟨slots, rfl⟩ := hs
    rw [address, List.map_cons]
    cases s with
    | name | index => exact congrArg _ (ih fun hmem => happend (List.mem_cons_of_mem _ hmem))
    | append => exact absurd (List.mem_cons_self ..) happend

end Trail

namespace Tree
variable {writes : List (KeyPath × String)} {tree : Tree}

theorem history_resolves (writes : List (KeyPath × String)) :
    List.Forall₂ (fun write entry => Trail.Resolves write.1.steps entry.1 ∧ entry.2 = write.2)
      writes (history writes) := by
  induction writes using List.reverseRecOn with
  | nil => exact .nil
  | append_singleton writes write ih =>
    rw [history_append_singleton, record]
    exact List.rel_append ih (.cons ⟨Trail.resolves_resolveFrom .., rfl⟩ .nil)

theorem Holds.leaves_finish {history : List (Trail × String)} (h : tree.Holds history) :
    tree.finish.root.leaves.Perm (history.map Node.atAddress) := by
  have htrails : (Node.map tree.entries).trails = Node.trails? tree.node? := by
    unfold node?
    split
    · rename_i hnil
      rw [List.isEmpty_iff.1 hnil]
      rfl
    · rfl
  rw [finish_eq, Document.root, ← Node.value, Node.leaves_value, htrails]
  exact h.trails.map _

theorem Holds.filled_finish {history : List (Trail × String)} (h : tree.Holds history) :
    ∀ e ∈ tree.finish.entries, e.2.Everywhere Value.Filled := by
  rw [finish_eq]
  intro e he
  have hne : tree.entries ≠ [] := by
    rintro hnil
    rw [hnil] at he
    cases he
  exact (h.grown _ (node?_of_ne_nil hne)).filled_value.entry e he

theorem Holds.distinct_finish {history : List (Trail × String)} (h : tree.Holds history) :
    tree.finish.root.Everywhere Value.Distinct := by
  rw [finish_eq]
  by_cases hne : tree.entries = []
  · rw [hne]
    simp [Document.root, Node.valueEntries, Entries.keys]
  · exact (h.grown _ (node?_of_ne_nil hne)).distinct_value

theorem Holds.bounded_finish {history : List (Trail × String)} (h : tree.Holds history)
    (hlen : history.length ≤ indexBound) : tree.finish.root.Everywhere Value.Bounded := by
  rw [finish_eq]
  by_cases hne : tree.entries = []
  · rw [hne]
    simp [Document.root, Node.valueEntries]
  · have hnode := node?_of_ne_nil hne
    refine (h.grown _ hnode).bounded_value ?_
    rw [← h.trails.length_eq, hnode] at hlen
    exact hlen

theorem leaves_finish_perm (h : ofWrites writes = .ok tree) :
    (tree.finish.leaves.map fun leaf => (leaf.1.steps, leaf.2)).Perm
      ((history writes).map Node.atAddress) := by
  rw [Canonical.leaves_steps]
  exact (holds_of_ofWrites h).leaves_finish

theorem length_leaves_finish (h : ofWrites writes = .ok tree) :
    tree.finish.leaves.length = writes.length := by
  have := (leaves_finish_perm h).length_eq
  rwa [List.length_map, List.length_map, ← (history_resolves writes).length_eq] at this

/-- A text of a grown document has been written under a key of the same names and depth. -/
theorem exists_write_of_mem_leaves (h : ofWrites writes = .ok tree) {leaf : KeyPath × String}
    (hleaf : leaf ∈ tree.finish.leaves) :
    ∃ write ∈ writes, leaf.2 = write.2 ∧ leaf.1.depth = write.1.depth ∧
      ∀ key, .name key ∈ leaf.1.steps → .name key ∈ write.1.steps := by
  have hmem := (leaves_finish_perm h).mem_iff.1 (List.mem_map_of_mem hleaf)
  obtain ⟨entry, hentry, heq⟩ := List.mem_map.1 hmem
  obtain ⟨hsteps, htext⟩ : entry.1.address = leaf.1.steps ∧ entry.2 = leaf.2 := Prod.mk.inj heq
  obtain ⟨write, hwrite, hresolves, hwritten⟩ :=
    Result.exists_of_forall₂ (history_resolves writes) entry hentry
  refine ⟨write, hwrite, htext ▸ hwritten, ?_, fun key hkey => ?_⟩
  · have hlen := congrArg List.length hsteps
    rw [Trail.address, List.length_map, ← hresolves.length_eq] at hlen
    simpa [KeyPath.steps, KeyPath.depth] using hlen.symm
  · rw [← hsteps] at hkey
    exact hresolves.mem_of_name hkey

/-- Every write has put a text where it leads, at the same depth. -/
theorem exists_leaf_of_mem_writes (h : ofWrites writes = .ok tree) {write : KeyPath × String}
    (hwrite : write ∈ writes) :
    ∃ leaf ∈ tree.finish.leaves, leaf.2 = write.2 ∧ leaf.1.depth = write.1.depth := by
  obtain ⟨entry, hentry, hresolves, hwritten⟩ :=
    Result.exists_of_forall₂ (history_resolves writes).flip write hwrite
  have hmem := (leaves_finish_perm h).mem_iff.2 (List.mem_map_of_mem hentry)
  obtain ⟨leaf, hleaf, heq⟩ := List.mem_map.1 hmem
  obtain ⟨hsteps, htext⟩ : leaf.1.steps = entry.1.address ∧ leaf.2 = entry.2 := Prod.mk.inj heq
  refine ⟨leaf, hleaf, htext.trans hwritten, ?_⟩
  have hlen := congrArg List.length hsteps
  rw [Trail.address, List.length_map, ← hresolves.length_eq] at hlen
  simpa [KeyPath.steps, KeyPath.depth] using hlen

/-- A write without appends puts its text where its key says. -/
theorem mem_leaves_of_write (h : ofWrites writes = .ok tree) {write : KeyPath × String}
    (hwrite : write ∈ writes) (happend : .append ∉ write.1.steps) :
    (write.1.steps, write.2) ∈ tree.finish.root.leaves := by
  obtain ⟨entry, hentry, hresolves, hwritten⟩ :=
    Result.exists_of_forall₂ (history_resolves writes).flip write hwrite
  rw [(holds_of_ofWrites h).leaves_finish.mem_iff]
  refine List.mem_map.2 ⟨entry, hentry, ?_⟩
  rw [Node.atAddress, hresolves.address_eq happend, hwritten]

end Tree

theorem Document.readable_leaves {doc : Document} (bounded : doc.root.Everywhere Value.Bounded)
    (name : ∀ leaf ∈ doc.leaves, ∀ key, .name key ∈ leaf.1.steps →
      key ≠ "" ∧ hasControl key = false)
    (text : ∀ leaf ∈ doc.leaves, hasControl leaf.2 = false) :
    ∀ leaf ∈ doc.leaves, Readable leaf := by
  intro leaf hleaf
  refine ⟨fun s hs => ?_, text leaf hleaf⟩
  have hroot : (leaf.1.steps, leaf.2) ∈ doc.root.leaves := by
    rw [← Canonical.leaves_steps]
    exact List.mem_map_of_mem hleaf
  obtain ⟨happend, hindex⟩ := Value.step_of_mem_leaves bounded _ hroot s hs
  cases s with
  | name key => exact name leaf hleaf key hs
  | index n => exact hindex n rfl
  | append => exact absurd rfl happend

end NestedQuery
