import Mathlib.Data.List.ReduceOption
import NestedQuery.Proofs.Result
import NestedQuery.Query

/-!
# Queries as writes

Reading a query is writing the pairs of its segments into an empty tree one after another. A segment
is read without a look at the tree (`readWrite`), so a query is accepted exactly if every segment
can be read and the tree takes the writes in turn: `parse_eq_ok`, from `readAll_eq_ok`.
-/

namespace NestedQuery

/-- The tree that takes the writes in turn. -/
def Tree.ofWrites (writes : List (KeyPath × String)) : Result Tree :=
  writes.foldlM (fun tree write => tree.insert write.1 write.2) .empty

namespace Query

/-! ### Segments -/

theorem split_cons (b : UInt8) (bytes : List UInt8) :
    split (b :: bytes) =
      if b = Byte.ampersand then ([], (split bytes).1 :: (split bytes).2)
      else (b :: (split bytes).1, (split bytes).2) :=
  rfl

theorem segments_eq_splitOn (bytes : List UInt8) :
    segments bytes = bytes.splitOn Byte.ampersand := by
  induction bytes with
  | nil => rfl
  | cons b bytes ih =>
    rw [List.splitOn_cons_eq_if_modifyHead, ← ih, segments, segments, split_cons,
      List.modifyHead_cons]
    by_cases hb : b = Byte.ampersand
    · rw [if_pos hb, if_pos (beq_iff_eq.2 hb)]
    · rw [if_neg hb, if_neg (mt beq_iff_eq.1 hb)]

theorem ne_ampersand_of_mem_segments {bytes : List UInt8} :
    ∀ p ∈ segments bytes, ∀ b ∈ p, b ≠ Byte.ampersand := by
  induction bytes with
  | nil => simp [segments, split]
  | cons b bytes ih =>
    rw [segments, List.forall_mem_cons] at ih
    rw [segments, split_cons]
    split
    · simpa using ih
    · rename_i hb
      exact List.forall_mem_cons.2 ⟨List.forall_mem_cons.2 ⟨hb, ih.1⟩, ih.2⟩

/-- A segment is a key, and after it a `=` and a value unless it ends there. -/
theorem Pair.ofSegment_cut (segment : List UInt8) :
    segment = (ofSegment segment).key ∧ (ofSegment segment).value = [] ∨
      segment = (ofSegment segment).key ++ Byte.equals :: (ofSegment segment).value := by
  have hcut : (ofSegment segment).key ++ segment.dropWhile (· != Byte.equals) = segment :=
    List.takeWhile_append_dropWhile
  have hfirst := List.head?_dropWhile_not (· != Byte.equals) segment
  rw [ofSegment] at hcut ⊢
  cases hrest : segment.dropWhile (· != Byte.equals) with
  | nil =>
    rw [hrest, List.append_nil] at hcut
    exact .inl ⟨hcut.symm, rfl⟩
  | cons b value =>
    rw [hrest] at hcut hfirst
    have hb : b = Byte.equals := by simpa using hfirst
    rw [hb] at hcut
    exact .inr hcut.symm

theorem Pair.ofSegment_append {key : List UInt8} (h : ∀ b ∈ key, b ≠ Byte.equals)
    (value : List UInt8) : ofSegment (key ++ Byte.equals :: value) = ⟨key, value⟩ := by
  have plain : ∀ b ∈ key, (b != Byte.equals) = true := fun b hb => bne_iff_ne.2 (h b hb)
  rw [ofSegment, List.takeWhile_append_of_pos plain, List.dropWhile_append_of_pos plain]
  simp

theorem Pair.ofSegment_of_forall_ne {key : List UInt8} (h : ∀ b ∈ key, b ≠ Byte.equals) :
    ofSegment key = ⟨key, []⟩ := by
  have plain : ∀ b ∈ key, (b != Byte.equals) = true := fun b hb => bne_iff_ne.2 (h b hb)
  have hkey := @List.takeWhile_append_of_pos _ _ key [] plain
  have hrest := @List.dropWhile_append_of_pos _ _ key [] plain
  simp only [List.append_nil, List.takeWhile_nil, List.dropWhile_nil] at hkey hrest
  rw [ofSegment, hkey, hrest]
  rfl

/-- The segments that are not empty, with their offsets. -/
def located (offset : Nat) : List (List UInt8) → List (Nat × List UInt8)
  | [] => []
  | segment :: segments =>
    if segment.isEmpty then located (offset + segment.length + 1) segments
    else (offset, segment) :: located (offset + segment.length + 1) segments

theorem map_located (offset : Nat) (segments : List (List UInt8)) :
    (located offset segments).map Prod.snd = segments.filter (!·.isEmpty) := by
  induction segments generalizing offset with
  | nil => rfl
  | cons segment segments ih =>
    rw [located]
    split <;> simp [*]

/-- The segments of an input that are not empty, with their offsets. -/
def locatedIn (input : List UInt8) : List (Nat × List UInt8) :=
  located (body input).2 (segments (body input).1)

/-- The pairs of a query as they are spelled. -/
def spellings (input : List UInt8) : List (List UInt8) :=
  (segments (body input).1).filter (!·.isEmpty)

theorem map_locatedIn (input : List UInt8) : (locatedIn input).map Prod.snd = spellings input :=
  map_located _ _

/-! ### Writes -/

/-- The write that the segment at `offset` asks for; none if it has no key. -/
def readWrite (config : Config) (offset : Nat) (segment : List UInt8) :
    Result (Option (KeyPath × String)) := do
  let pair := Pair.ofSegment segment
  let valueOffset := offset + (segment.length - pair.value.length)
  if pair.key.isEmpty then
    let _ ← Percent.decode config.spaceAsPlus valueOffset pair.value
    return none
  let path ← pair.readKey config offset
  let value ← Percent.decode config.spaceAsPlus valueOffset pair.value
  return some (path, value)

theorem checkLength_eq_ok {config : Config} {length : Nat} :
    config.checkLength length = .ok () ↔ Config.exceeded? config.maxLength length = none := by
  rw [Config.checkLength]
  cases Config.exceeded? config.maxLength length <;> simp

theorem checkParams_eq_ok {config : Config} {count : Nat} :
    config.checkParams count = .ok () ↔ Config.exceeded? config.maxParams count = none := by
  rw [Config.checkParams]
  cases Config.exceeded? config.maxParams count <;> simp

theorem checkDepth_eq_ok {config : Config} {key : List UInt8} {depth : Nat} :
    config.checkDepth key depth = .ok () ↔ Config.exceeded? config.maxDepth depth = none := by
  rw [Config.checkDepth]
  cases Config.exceeded? config.maxDepth depth <;> simp

/-- A key is read if its brackets match, it is not too deep and its names decode. -/
theorem Pair.readKey_eq_ok {config : Config} {offset : Nat} {pair : Pair} {path : KeyPath} :
    pair.readKey config offset = .ok path ↔
      ∃ raw, RawKeyPath.tokenize pair.key = .ok raw ∧
        Config.exceeded? config.maxDepth raw.segments.length = none ∧
          raw.decode config.spaceAsPlus offset = .ok path := by
  simp only [readKey, KeyPath.tokenize, Result.bind_eq_ok, Result.mapError_eq_ok]
  constructor
  · rintro ⟨raw, hraw, _, hdepth, hpath⟩
    exact ⟨raw, hraw, checkDepth_eq_ok.1 hdepth, hpath⟩
  · rintro ⟨raw, hraw, hdepth, hpath⟩
    exact ⟨raw, hraw, (), checkDepth_eq_ok.2 hdepth, hpath⟩

/-- A segment is read if its value decodes and its key, unless it is empty, is read. -/
theorem readWrite_eq_ok {config : Config} {offset : Nat} {segment : List UInt8}
    {write : Option (KeyPath × String)} :
    readWrite config offset segment = .ok write ↔
      ∃ text, Percent.decode config.spaceAsPlus
          (offset + (segment.length - (Pair.ofSegment segment).value.length))
          (Pair.ofSegment segment).value = .ok text ∧
        ((Pair.ofSegment segment).key = [] ∧ write = none ∨
          (Pair.ofSegment segment).key ≠ [] ∧
            ∃ path, (Pair.ofSegment segment).readKey config offset = .ok path ∧
              write = some (path, text)) := by
  by_cases hkey : (Pair.ofSegment segment).key = []
  · rw [readWrite, if_pos (by simp [hkey]), Result.bind_eq_ok]
    simp [hkey, pure, Except.pure, eq_comm]
  · rw [readWrite, if_neg (by simp [hkey])]
    simp only [Result.bind_eq_ok, hkey, false_and, false_or, ne_eq, not_false_eq_true, true_and]
    constructor
    · rintro ⟨path, hpath, text, htext, h⟩
      exact ⟨text, htext, path, hpath, (Except.ok.inj h).symm⟩
    · rintro ⟨text, htext, path, hpath, rfl⟩
      exact ⟨path, hpath, text, htext, rfl⟩

def perform (tree : Tree) : Option (KeyPath × String) → Result Tree
  | none => .ok tree
  | some (path, text) => tree.insert path text

theorem readPair_eq (config : Config) (offset : Nat) (segment : List UInt8) (tree : Tree) :
    readPair config offset segment tree = readWrite config offset segment >>= perform tree := by
  unfold readPair readWrite
  dsimp only
  split
  · cases Percent.decode config.spaceAsPlus _ (Pair.ofSegment segment).value <;> rfl
  · cases (Pair.ofSegment segment).readKey config offset with
    | error => rfl
    | ok path => cases Percent.decode config.spaceAsPlus _ (Pair.ofSegment segment).value <;> rfl

theorem readAll_eq (config : Config) (offset : Nat) (segments : List (List UInt8)) :
    readAll config offset segments =
      (located offset segments).foldlM (fun tree p => readPair config p.1 p.2 tree) .empty := by
  -- where a segment starts does not depend on the tree, so the offsets can be told in advance
  have walk : ∀ (offset : Nat) (tree : Tree),
      Progress.tree <$> segments.foldlM (Progress.read config) ⟨offset, tree⟩ =
        (located offset segments).foldlM (fun tree p => readPair config p.1 p.2 tree) tree := by
    induction segments with
    | nil => intros; rfl
    | cons segment segments ih =>
      intro offset tree
      rw [List.foldlM_cons, located, Progress.read]
      split
      · exact ih _ tree
      · rw [List.foldlM_cons]
        cases readPair config offset segment tree with
        | error => rfl
        | ok tree => exact ih _ tree
  rw [← walk, readAll]
  cases segments.foldlM (Progress.read config) ⟨offset, .empty⟩ <;> rfl

theorem foldlM_readPair_eq_ok {config : Config} {segments : List (Nat × List UInt8)}
    {start tree : Tree} :
    segments.foldlM (fun tree p => readPair config p.1 p.2 tree) start = .ok tree ↔
      ∃ writes, segments.mapM (fun p => readWrite config p.1 p.2) = .ok writes ∧
        writes.reduceOption.foldlM (fun tree write => tree.insert write.1 write.2) start =
          .ok tree := by
  induction segments generalizing start with
  | nil => simp [pure, Except.pure, List.reduceOption_nil]
  | cons p segments ih =>
    simp only [List.foldlM_cons, Result.bind_eq_ok, ih, List.mapM_cons]
    simp only [readPair_eq, Result.bind_eq_ok]
    constructor
    · rintro ⟨next, ⟨write, hwrite, hnext⟩, writes, hwrites, htree⟩
      refine ⟨write :: writes, ⟨write, hwrite, writes, hwrites, rfl⟩, ?_⟩
      cases write with
      | none => cases hnext; exact htree
      | some write => exact Result.bind_eq_ok.2 ⟨next, hnext, htree⟩
    · rintro ⟨_, ⟨write, hwrite, writes, hwrites, hcons⟩, htree⟩
      cases hcons
      cases write with
      | none => exact ⟨start, ⟨none, hwrite, rfl⟩, writes, hwrites, htree⟩
      | some write =>
        obtain ⟨next, hnext, htree⟩ := Result.bind_eq_ok.1 htree
        exact ⟨next, ⟨some write, hwrite, hnext⟩, writes, hwrites, htree⟩

/-- A query is read if its segments can be and the tree takes their writes. -/
theorem readAll_eq_ok {config : Config} {offset : Nat} {segments : List (List UInt8)}
    {tree : Tree} :
    readAll config offset segments = .ok tree ↔
      ∃ writes, (located offset segments).mapM (fun p => readWrite config p.1 p.2) = .ok writes ∧
        Tree.ofWrites writes.reduceOption = .ok tree := by
  rw [readAll_eq, foldlM_readPair_eq_ok]
  rfl

theorem parse_eq_ok {config : Config} {input : List UInt8} {doc : Document} :
    parse config input = .ok doc ↔
      config.checkLength input.length = .ok () ∧
        config.checkParams ((segments (body input).1).countP (!·.isEmpty)) = .ok () ∧
        ∃ tree, readAll config (body input).2 (segments (body input).1) = .ok tree ∧
          tree.finish = doc := by
  simp only [parse, Result.bind_eq_ok]
  constructor
  · rintro ⟨_, hlength, _, hparams, tree, htree, hdoc⟩
    exact ⟨hlength, hparams, tree, htree, Except.ok.inj hdoc⟩
  · rintro ⟨hlength, hparams, tree, htree, rfl⟩
    exact ⟨(), hlength, (), hparams, tree, htree, rfl⟩

end Query

end NestedQuery
