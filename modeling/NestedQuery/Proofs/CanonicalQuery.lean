import NestedQuery.Proofs.CanonicalKey
import NestedQuery.Proofs.Writes

/-!
# Canonical queries read back

The canonical query of a document splits into the pairs of its texts (`filter_segments_bytes`), and
each pair reads back as the write of its text (`readWrite_pair`). So reading the query is writing
the texts into an empty tree, within the limits that the texts keep: `parse_stringify_eq_ok`.
-/

namespace NestedQuery

/-- Texts and paths that read back from their canonical spelling. -/
def Readable (leaf : KeyPath × String) : Prop :=
  (∀ s ∈ leaf.1.steps, s.Spellable) ∧ hasControl leaf.2 = false

/-- The limits of a reader leave room for the writes, however long a query spells them. -/
structure Config.Admits (config : Config) (writes : List (KeyPath × String)) : Prop where
  length : config.maxLength = none
  params : exceeded? config.maxParams writes.length = none
  depth : ∀ write ∈ writes, exceeded? config.maxDepth write.1.depth = none

theorem Config.admits_of_unlimited (spaceAsPlus : Bool) (writes : List (KeyPath × String)) :
    Config.Admits { spaceAsPlus } writes :=
  ⟨rfl, rfl, fun _ _ => rfl⟩

namespace Canonical
variable {write : Bool}

/-! ### The bytes of a canonical query -/

theorem uncut_of_mem_segment {b : UInt8} {s : Segment} (h : b ∈ segment write s) :
    Percent.Uncut b := by
  rw [segment_eq] at h
  simp only [List.cons_append, List.mem_cons, List.mem_append, List.not_mem_nil, or_false] at h
  rcases h with rfl | h | rfl
  · constructor <;> decide
  · exact Percent.uncut_of_isCanonical (isCanonical_of_mem_content h)
  · constructor <;> decide

theorem uncut_of_mem_key {b : UInt8} {path : KeyPath} (h : b ∈ key write path) :
    Percent.Uncut b := by
  rw [key, encodeName_eq] at h
  rcases List.mem_append.1 h with h | h
  · exact Percent.uncut_of_isCanonical (Percent.isCanonical_of_mem_encode h)
  · obtain ⟨s, -, h⟩ := List.mem_flatMap.1 h
    exact uncut_of_mem_segment h

/-- Only the `=` between its key and its text cuts a pair. -/
theorem uncut_of_mem_pair {b : UInt8} {leaf : KeyPath × String} (h : b ∈ pair write leaf) :
    b = Byte.equals ∨ Percent.Uncut b := by
  rcases List.mem_append.1 h with h | h
  · exact .inr (uncut_of_mem_key h)
  · rcases List.mem_cons.1 h with h | h
    · exact .inl h
    · exact .inr (Percent.uncut_of_isCanonical (Percent.isCanonical_of_mem_encode h))

theorem ne_ampersand_of_mem_pair {b : UInt8} {leaf : KeyPath × String}
    (h : b ∈ pair write leaf) : b ≠ Byte.ampersand := by
  rcases uncut_of_mem_pair h with rfl | h
  · decide
  · exact h.ne_ampersand

theorem mem_intercalate {b separator : UInt8} {parts : List (List UInt8)}
    (h : b ∈ List.intercalate [separator] parts) : b = separator ∨ ∃ p ∈ parts, b ∈ p := by
  cases parts with
  | nil => cases h
  | cons first others =>
    rw [intercalate_cons, List.mem_append, List.mem_flatMap] at h
    rcases h with h | ⟨p, hp, h⟩
    · exact .inr ⟨first, by simp, h⟩
    · rcases List.mem_cons.1 h with h | h
      · exact .inl h
      · exact .inr ⟨p, by simp [hp], h⟩

variable {config : Config} {doc : Document}

theorem ne_of_mem_bytes {b : UInt8} (h : b ∈ (bytes config doc).data.toList) :
    b < 0x80 ∧ b ≠ Byte.questionMark := by
  rw [toList_bytes] at h
  rcases mem_intercalate h with rfl | ⟨p, hp, h⟩
  · decide
  · obtain ⟨leaf, -, rfl⟩ := List.mem_map.1 hp
    rcases uncut_of_mem_pair h with rfl | h
    · decide
    · exact ⟨h.ascii, h.ne_questionMark⟩

theorem encode_stringify (config : Config) (doc : Document) :
    Utf8.encode (doc.stringify config) = (bytes config doc).data.toList :=
  encode_asciiText fun _ h => (ne_of_mem_bytes h).1

/-! ### Cutting a canonical query -/

theorem body_bytes (config : Config) (doc : Document) :
    Query.body (bytes config doc).data.toList = ((bytes config doc).data.toList, 0) := by
  cases h : (bytes config doc).data.toList with
  | nil => rfl
  | cons b rest =>
    have : b ∈ (bytes config doc).data.toList := by simp [h]
    exact if_neg (ne_of_mem_bytes this).2

theorem pair_isEmpty (leaf : KeyPath × String) : (pair write leaf).isEmpty = false := by
  simp [pair]

theorem segments_bytes {config : Config} {doc : Document} (h : doc.leaves ≠ []) :
    Query.segments (bytes config doc).data.toList = doc.leaves.map (pair config.spaceAsPlus) := by
  rw [toList_bytes, Query.segments_eq_splitOn, List.splitOn_intercalate]
  · intro p hp hmem
    obtain ⟨leaf, -, rfl⟩ := List.mem_map.1 hp
    exact ne_ampersand_of_mem_pair hmem rfl
  · simpa using h

theorem filter_segments_bytes (config : Config) (doc : Document) :
    (Query.segments (bytes config doc).data.toList).filter (!·.isEmpty) =
      doc.leaves.map (pair config.spaceAsPlus) := by
  by_cases hleaves : doc.leaves = []
  · rw [toList_bytes, hleaves]
    rfl
  · rw [segments_bytes hleaves, List.filter_eq_self]
    intro p hp
    obtain ⟨leaf, -, rfl⟩ := List.mem_map.1 hp
    rw [pair_isEmpty]
    rfl

theorem ofSegment_pair (leaf : KeyPath × String) :
    Query.Pair.ofSegment (pair write leaf) = ⟨key write leaf.1, Percent.encode write leaf.2⟩ :=
  Query.Pair.ofSegment_append (fun _ hb => (uncut_of_mem_key hb).ne_equals) _

theorem key_ne_nil {path : KeyPath} (h : path.root ≠ "") : key write path ≠ [] := by
  rw [key, encodeName_eq]
  simp [encode_ne_nil h]

end Canonical

/-! ### Reading a canonical query -/

namespace Query
variable {read write : Config} {doc : Document}

theorem readWrite_pair (hwr : write.spaceAsPlus = true → read.spaceAsPlus = true)
    {leaf : KeyPath × String} (h : Readable leaf)
    (hdepth : Config.exceeded? read.maxDepth leaf.1.depth = none) (offset : Nat) :
    readWrite read offset (Canonical.pair write.spaceAsPlus leaf) = .ok (some leaf) := by
  obtain ⟨raw, hraw, hlen, hdecode⟩ := Canonical.tokenize_key hwr h.1
  have hroot : leaf.1.root ≠ "" := (h.1 (.name leaf.1.root) (by simp [KeyPath.steps])).1
  have hkey : Pair.readKey read offset
      ⟨Canonical.key write.spaceAsPlus leaf.1, Percent.encode write.spaceAsPlus leaf.2⟩ =
        .ok leaf.1 := by
    rw [Pair.readKey, KeyPath.tokenize, hraw, Except.mapError, Result.ok_bind, Config.checkDepth,
      hlen, show leaf.1.segments.length = leaf.1.depth from rfl, hdepth]
    exact hdecode offset
  rw [readWrite, Canonical.ofSegment_pair, if_neg (by simpa using Canonical.key_ne_nil hroot), hkey,
    Percent.decode_encode hwr h.2]
  rfl

theorem mapM_readWrite_pairs (hwr : write.spaceAsPlus = true → read.spaceAsPlus = true)
    {leaves : List (KeyPath × String)} (hreadable : ∀ leaf ∈ leaves, Readable leaf)
    (hdepth : ∀ leaf ∈ leaves, Config.exceeded? read.maxDepth leaf.1.depth = none)
    {segments : List (Nat × List UInt8)}
    (h : segments.map Prod.snd = leaves.map (Canonical.pair write.spaceAsPlus)) :
    segments.mapM (fun p => readWrite read p.1 p.2) = .ok (leaves.map some) := by
  induction leaves generalizing segments with
  | nil => rw [List.map_eq_nil_iff.1 h]; rfl
  | cons leaf leaves ih =>
    obtain ⟨p, segments, rfl, hp, h⟩ := List.map_eq_cons_iff.1 h
    rw [List.mapM_cons, hp, readWrite_pair hwr (hreadable leaf (by simp)) (hdepth leaf (by simp)),
      ih (fun l hl => hreadable l (by simp [hl])) (fun l hl => hdepth l (by simp [hl])) h]
    rfl

/-- Reading the canonical query of a document is writing its texts in order. -/
theorem parse_stringify_eq_ok (hwr : write.spaceAsPlus = true → read.spaceAsPlus = true)
    (hreadable : ∀ leaf ∈ doc.leaves, Readable leaf) (admits : read.Admits doc.leaves)
    {d : Document} :
    parseText read (doc.stringify write) = .ok d ↔
      ∃ tree, Tree.ofWrites doc.leaves = .ok tree ∧ tree.finish = d := by
  have hsegments := Canonical.filter_segments_bytes write doc
  have hlocated := (map_located 0 _).trans hsegments
  have hwrites := mapM_readWrite_pairs hwr hreadable admits.depth hlocated
  have hsome : (doc.leaves.map some).reduceOption = doc.leaves := by simp [List.reduceOption]
  rw [parseText, Canonical.encode_stringify, parse_eq_ok, Canonical.body_bytes,
    List.countP_eq_length_filter, hsegments, List.length_map, checkParams_eq_ok]
  simp only [readAll_eq_ok, hwrites, Except.ok.injEq, exists_eq_left', hsome]
  refine ⟨fun h => h.2.2, fun h => ⟨checkLength_eq_ok.2 ?_, admits.params, h⟩⟩
  rw [admits.length]
  rfl

end Query

end NestedQuery
