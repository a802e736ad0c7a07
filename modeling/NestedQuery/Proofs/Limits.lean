import Mathlib
import NestedQuery.Proofs.Grammar
import NestedQuery.Proofs.Nesting
import NestedQuery.Proofs.Parsed

/-!
# Limits

Limits turn inputs away and change nothing else. A segment that is within the depth limit is read as
without one (`readWrite_of_within`), and the document nests as deep as the deepest key
(`nesting_finish_le_iff`). So what a reader with limits makes of an input is told by the reader
without them: `parse_within_limits`.
-/

namespace NestedQuery

namespace Config

/-- No number is beyond a limit that is not there. -/
def Within (limit : Option Nat) (actual : Nat) : Prop :=
  ∀ n ∈ limit, actual ≤ n

theorem exceeded?_eq_none_iff {limit : Option Nat} {actual : Nat} :
    exceeded? limit actual = none ↔ Within limit actual := by
  cases limit <;> simp [exceeded?, Within, Option.filter_some]

theorem exceeded?_eq_some_iff {limit : Option Nat} {actual n : Nat} :
    exceeded? limit actual = some n ↔ n ∈ limit ∧ n < actual := by
  simp [exceeded?, Option.filter_eq_some_iff]

theorem within_none (actual : Nat) : Within none actual :=
  nofun

/-- Each limit of `wide` is gone, or at least as high as that of `config`. -/
structure Loosens (wide config : Config) : Prop where
  spaceAsPlus : wide.spaceAsPlus = config.spaceAsPlus
  length : ∀ n ∈ wide.maxLength, ∃ m ∈ config.maxLength, m ≤ n
  params : ∀ n ∈ wide.maxParams, ∃ m ∈ config.maxParams, m ≤ n
  depth : ∀ n ∈ wide.maxDepth, ∃ m ∈ config.maxDepth, m ≤ n

theorem Loosens.unlimited_eq {wide config : Config} (h : wide.Loosens config) :
    wide.unlimited = config.unlimited := by
  rw [unlimited, unlimited, h.spaceAsPlus]

theorem Within.loosen {wide strict : Option Nat} {actual : Nat}
    (h : ∀ n ∈ wide, ∃ m ∈ strict, m ≤ n) (hstrict : Within strict actual) :
    Within wide actual := by
  intro n hn
  obtain ⟨m, hm, hle⟩ := h n hn
  exact (hstrict m hm).trans hle

end Config

namespace Query

/-- The pairs of a query in order, one for each segment that is not empty. -/
def pairs (input : List UInt8) : List Pair :=
  ((segments (body input).1).filter (!·.isEmpty)).map Pair.ofSegment

/-- The number of bracket groups in a key that can be read. -/
def Pair.groups (pair : Pair) : Nat :=
  pair.key.count Byte.openBracket

theorem pairs_eq (input : List UInt8) :
    pairs input = (locatedIn input).map fun p => Pair.ofSegment p.2 := by
  rw [pairs, ← map_located (body input).2, List.map_map]
  rfl

theorem length_pairs (input : List UInt8) :
    (pairs input).length = (segments (body input).1).countP (!·.isEmpty) := by
  rw [pairs, List.length_map, List.countP_eq_length_filter]

variable {config : Config} {offset limit : Nat} {segment : List UInt8}
  {w : Option (KeyPath × String)}

/-! ### One segment -/

theorem groups_eq {pair : Pair} {raw : RawKeyPath} (h : RawKeyPath.tokenize pair.key = .ok raw) :
    pair.groups = raw.segments.length :=
  RawKeyPath.count_openBracket h

theorem groups_of_key_eq_nil {pair : Pair} (h : pair.key = []) : pair.groups = 0 := by
  rw [Pair.groups, h]
  rfl

theorem readKey_of_within {pair : Pair}
    (h : Config.Within config.maxDepth pair.groups) :
    pair.readKey config offset = pair.readKey config.unlimited offset := by
  rw [Pair.readKey, Pair.readKey]
  cases hraw : KeyPath.tokenize offset pair.key with
  | error => rfl
  | ok raw =>
    rw [groups_eq (Result.mapError_eq_ok.1 hraw)] at h
    rw [Result.ok_bind, Result.ok_bind, checkDepth_eq_ok.2 (Config.exceeded?_eq_none_iff.2 h)]
    rfl

theorem readWrite_of_within
    (h : Config.Within config.maxDepth (Pair.ofSegment segment).groups) :
    readWrite config offset segment = readWrite config.unlimited offset segment := by
  rw [readWrite, readWrite, readKey_of_within h]
  rfl

theorem readWrite_of_exceeded (hread : readWrite config.unlimited offset segment = .ok w)
    (hlimit : limit ∈ config.maxDepth) (h : limit < (Pair.ofSegment segment).groups) :
    readWrite config offset segment =
      .error (.depthExceeded (Utf8.lossy (Pair.ofSegment segment).key)
        (Pair.ofSegment segment).groups limit) := by
  obtain ⟨text, -, ⟨hkey, -⟩ | ⟨hkey, path, hpath, -⟩⟩ := readWrite_eq_ok.1 hread
  · rw [groups_of_key_eq_nil hkey] at h
    exact absurd h (Nat.not_lt_zero limit)
  · obtain ⟨raw, hraw, -⟩ := Pair.readKey_eq_ok.1 hpath
    rw [readWrite, if_neg (by simpa using hkey), Pair.readKey, KeyPath.tokenize, hraw,
      Except.mapError, Result.ok_bind, Config.checkDepth, ← groups_eq hraw,
      Config.exceeded?_eq_some_iff.2 ⟨hlimit, h⟩]
    rfl

theorem within_of_readWrite (h : readWrite config offset segment = .ok w) :
    Config.Within config.maxDepth (Pair.ofSegment segment).groups := by
  obtain ⟨text, -, ⟨hkey, -⟩ | ⟨-, path, hpath, -⟩⟩ := readWrite_eq_ok.1 h
  · rw [groups_of_key_eq_nil hkey]
    exact fun n _ => Nat.zero_le n
  · obtain ⟨raw, hraw, hdepth, -⟩ := Pair.readKey_eq_ok.1 hpath
    rw [groups_eq hraw]
    exact Config.exceeded?_eq_none_iff.1 hdepth

theorem readWrite_eq_ok_iff :
    readWrite config offset segment = .ok w ↔
      Config.Within config.maxDepth (Pair.ofSegment segment).groups ∧
        readWrite config.unlimited offset segment = .ok w := by
  constructor
  · intro h
    have hwithin := within_of_readWrite h
    exact ⟨hwithin, readWrite_of_within hwithin ▸ h⟩
  · rintro ⟨hwithin, h⟩
    exact readWrite_of_within hwithin ▸ h

/-- The depth of the write that a segment asks for; a segment without a key asks for none. -/
theorem depth_of_readWrite (h : readWrite config offset segment = .ok w) :
    (w.elim 0 fun write => write.1.depth) = (Pair.ofSegment segment).groups := by
  obtain ⟨text, -, ⟨hkey, rfl⟩ | ⟨-, path, hpath, rfl⟩⟩ := readWrite_eq_ok.1 h
  · exact (groups_of_key_eq_nil hkey).symm
  · obtain ⟨raw, hraw, -, hdecode⟩ := Pair.readKey_eq_ok.1 hpath
    rw [groups_eq hraw]
    exact RawKeyPath.length_of_decode hdecode

/-! ### All segments -/

theorem forall_pairs {P : Pair → Prop} {input : List UInt8} :
    (∀ pair ∈ pairs input, P pair) ↔ ∀ p ∈ locatedIn input, P (Pair.ofSegment p.2) := by
  rw [pairs_eq, List.forall_mem_map]

theorem mapM_readWrite_eq_ok {input : List UInt8} {writes : List (Option (KeyPath × String))} :
    (locatedIn input).mapM (fun p => readWrite config p.1 p.2) = .ok writes ↔
      (∀ pair ∈ pairs input, Config.Within config.maxDepth pair.groups) ∧
        (locatedIn input).mapM (fun p => readWrite config.unlimited p.1 p.2) = .ok writes := by
  simp only [Result.mapM_eq_ok, forall_pairs]
  rw [← List.forall₂_and_left]
  simp only [← readWrite_eq_ok_iff]

theorem nesting_finish_le_iff {input : List UInt8} {writes : List (Option (KeyPath × String))}
    {tree : Tree} (hread : (locatedIn input).mapM (fun p => readWrite config p.1 p.2) = .ok writes)
    (htree : Tree.ofWrites writes.reduceOption = .ok tree) :
    tree.finish.nesting ≤ limit ↔ ∀ pair ∈ pairs input, pair.groups ≤ limit := by
  have hdepths : (pairs input).map Pair.groups =
      writes.map fun w => w.elim 0 fun write => write.1.depth := by
    rw [pairs_eq, List.map_map, ← List.forall₂_eq_eq_eq, List.forall₂_map_left_iff,
      List.forall₂_map_right_iff]
    exact (Result.mapM_eq_ok.1 hread).imp fun _ _ h => (depth_of_readWrite h).symm
  have hpairs : (∀ pair ∈ pairs input, pair.groups ≤ limit) ↔
      ∀ write ∈ writes.reduceOption, write.1.depth ≤ limit := by
    rw [← List.forall_mem_map (P := (· ≤ limit)), hdepths, List.forall_mem_map]
    simp only [List.reduceOption_mem_iff]
    constructor
    · exact fun h write hwrite => h (some write) hwrite
    · rintro h (_ | write) hwrite
      -- a pair without a key has no group and asks for no write
      · exact Nat.zero_le limit
      · exact h write hwrite
  rw [Document.nesting_le_iff_leaves (Tree.holds_of_ofWrites htree).filled_finish, hpairs]
  constructor
  · intro h write hwrite
    obtain ⟨leaf, hleaf, -, hdepth⟩ := Tree.exists_leaf_of_mem_writes htree hwrite
    exact hdepth ▸ h leaf hleaf
  · intro h leaf hleaf
    obtain ⟨write, hwrite, -, hdepth, -⟩ := Tree.exists_write_of_mem_leaves htree hleaf
    exact hdepth ▸ h write hwrite

variable {input : List UInt8} {doc : Document}

/-- Reading goes on as without limits up to the first key that is too deep, and ends there. -/
theorem foldlM_readPair_of_exceeded {front back : List (Nat × List UInt8)} {p : Nat × List UInt8}
    {start tree : Tree}
    (hread : (front ++ p :: back).foldlM
      (fun tree p => readPair config.unlimited p.1 p.2 tree) start = .ok tree)
    (hfront : ∀ q ∈ front, Config.Within config.maxDepth (Pair.ofSegment q.2).groups)
    (hlimit : limit ∈ config.maxDepth) (hp : limit < (Pair.ofSegment p.2).groups) :
    (front ++ p :: back).foldlM (fun tree p => readPair config p.1 p.2 tree) start =
      .error (.depthExceeded (Utf8.lossy (Pair.ofSegment p.2).key)
        (Pair.ofSegment p.2).groups limit) := by
  induction front generalizing start with
  | nil =>
    rw [List.nil_append, List.foldlM_cons, Result.bind_eq_ok] at hread
    obtain ⟨next, hnext, -⟩ := hread
    rw [readPair_eq, Result.bind_eq_ok] at hnext
    obtain ⟨w, hw, -⟩ := hnext
    rw [List.nil_append, List.foldlM_cons, readPair_eq, readWrite_of_exceeded hw hlimit hp]
    rfl
  | cons q front ih =>
    rw [List.cons_append, List.foldlM_cons, Result.bind_eq_ok] at hread
    obtain ⟨next, hnext, hread⟩ := hread
    rw [readPair_eq, ← readWrite_of_within (hfront q (by simp)), ← readPair_eq] at hnext
    rw [List.cons_append, List.foldlM_cons, hnext, Result.ok_bind]
    exact ih hread fun r hr => hfront r (by simp [hr])

theorem parse_of_within (hlength : Config.Within config.maxLength input.length)
    (hparams : Config.Within config.maxParams (pairs input).length) :
    parse config input =
      Tree.finish <$>
        (locatedIn input).foldlM (fun tree p => readPair config p.1 p.2 tree) .empty := by
  rw [parse, Config.checkLength, Config.exceeded?_eq_none_iff.2 hlength, Result.ok_bind]
  rw [length_pairs] at hparams
  dsimp only
  rw [Config.checkParams, Config.exceeded?_eq_none_iff.2 hparams, Result.ok_bind, readAll_eq]
  rfl

theorem parse_unlimited :
    parse config.unlimited input =
      Tree.finish <$>
        (locatedIn input).foldlM (fun tree p => readPair config.unlimited p.1 p.2 tree) .empty :=
  parse_of_within (Config.within_none _) (Config.within_none _)

theorem within_of_parse (h : parse config input = .ok doc) :
    Config.Within config.maxLength input.length ∧
      Config.Within config.maxParams (pairs input).length := by
  obtain ⟨hlength, hparams, -⟩ := parse_eq_ok.1 h
  rw [length_pairs]
  exact ⟨Config.exceeded?_eq_none_iff.1 (checkLength_eq_ok.1 hlength),
    Config.exceeded?_eq_none_iff.1 (checkParams_eq_ok.1 hparams)⟩

/-- Within the limits on length and pairs, just the depth of the document decides. -/
theorem parse_eq_ok_iff_nesting (hlength : Config.Within config.maxLength input.length)
    (hparams : Config.Within config.maxParams (pairs input).length) :
    parse config input = .ok doc ↔
      parse config.unlimited input = .ok doc ∧ Config.Within config.maxDepth doc.nesting := by
  simp only [parse_of_within hlength hparams, parse_unlimited, Result.map_eq_ok,
    foldlM_readPair_eq_ok]
  constructor
  · rintro ⟨tree, ⟨writes, hread, htree⟩, rfl⟩
    obtain ⟨hwithin, hread⟩ := mapM_readWrite_eq_ok.1 hread
    refine ⟨⟨tree, ⟨writes, hread, htree⟩, rfl⟩, fun limit hlimit => ?_⟩
    exact (nesting_finish_le_iff hread htree).2 fun pair hpair => hwithin pair hpair limit hlimit
  · rintro ⟨⟨tree, ⟨writes, hread, htree⟩, rfl⟩, hwithin⟩
    refine ⟨tree, ⟨writes, mapM_readWrite_eq_ok.2 ⟨fun pair hpair limit hlimit => ?_, hread⟩,
      htree⟩, rfl⟩
    exact (nesting_finish_le_iff hread htree).1 (hwithin limit hlimit) pair hpair

/-- A document that is too deep is reported with the first key that is. -/
theorem exists_deep_pair (hlength : Config.Within config.maxLength input.length)
    (hparams : Config.Within config.maxParams (pairs input).length)
    (h : parse config.unlimited input = .ok doc) (hlimit : limit ∈ config.maxDepth)
    (hdeep : limit < doc.nesting) :
    ∃ front pair back, pairs input = front ++ pair :: back ∧
      (∀ earlier ∈ front, earlier.groups ≤ limit) ∧ limit < pair.groups ∧
        parse config input = .error (.depthExceeded (Utf8.lossy pair.key) pair.groups limit) := by
  rw [parse_unlimited] at h
  obtain ⟨tree, htree, rfl⟩ := Result.map_eq_ok.1 h
  obtain ⟨writes, hread, hwrites⟩ := foldlM_readPair_eq_ok.1 htree
  have hsome : ∃ p ∈ locatedIn input, limit < (Pair.ofSegment p.2).groups := by
    rw [← Nat.not_le, nesting_finish_le_iff hread hwrites, forall_pairs] at hdeep
    simpa using hdeep
  -- the first of them ends the reading: those in front of it are within the limit
  obtain ⟨p, hp⟩ : ∃ p, (locatedIn input).find?
      (fun p => limit < (Pair.ofSegment p.2).groups) = some p := by
    rw [← Option.isSome_iff_exists, List.find?_isSome]
    simpa using hsome
  obtain ⟨hp, front, back, hsplit, hfront⟩ := List.find?_eq_some_iff_append.1 hp
  simp only [decide_eq_true_eq, decide_eq_false_iff_not, Bool.not_eq_true', Nat.not_lt]
    at hp hfront
  refine ⟨front.map fun q => Pair.ofSegment q.2, Pair.ofSegment p.2,
    back.map fun q => Pair.ofSegment q.2, ?_, List.forall_mem_map.2 hfront, hp, ?_⟩
  · rw [pairs_eq, hsplit, List.map_append, List.map_cons]
  · have hwithin (q) (hq : q ∈ front) :
        Config.Within config.maxDepth (Pair.ofSegment q.2).groups := by
      intro n hn
      cases Option.mem_unique hn hlimit
      exact hfront q hq
    rw [hsplit] at htree
    rw [parse_of_within hlength hparams, hsplit,
      foldlM_readPair_of_exceeded htree hwithin hlimit hp]
    rfl

theorem parse_of_loosens {wide : Config} (hwide : wide.Loosens config)
    (h : parse config input = .ok doc) : parse wide input = .ok doc := by
  obtain ⟨hlength, hparams⟩ := within_of_parse h
  rw [parse_eq_ok_iff_nesting hlength hparams] at h
  rw [parse_eq_ok_iff_nesting (hlength.loosen hwide.length) (hparams.loosen hwide.params),
    hwide.unlimited_eq]
  exact ⟨h.1, h.2.loosen hwide.depth⟩

theorem parse_eq_inputTooLong (hlimit : limit ∈ config.maxLength) (h : limit < input.length) :
    parse config input = .error (.inputTooLong limit input.length) := by
  rw [parse, Config.checkLength, Config.exceeded?_eq_some_iff.2 ⟨hlimit, h⟩]
  rfl

theorem parse_eq_tooManyParameters (hlength : Config.Within config.maxLength input.length)
    (hlimit : limit ∈ config.maxParams) (h : limit < (pairs input).length) :
    parse config input = .error (.tooManyParameters limit (pairs input).length) := by
  rw [parse, Config.checkLength, Config.exceeded?_eq_none_iff.2 hlength, Result.ok_bind]
  rw [length_pairs] at h ⊢
  dsimp only
  rw [Config.checkParams, Config.exceeded?_eq_some_iff.2 ⟨hlimit, h⟩]
  rfl

/-- What a reader with limits makes of an input. Too many bytes, or else too many pairs, are
reported whatever the input holds. Otherwise the input is read as without limits, unless the
document nests too deep: then the first key with too many groups is reported. So limits that are
raised or cleared change nothing for an input that is accepted. -/
theorem parse_within_limits (config : Config) (input : List UInt8) :
    (∀ limit ∈ config.maxLength, limit < input.length →
      parse config input = .error (.inputTooLong limit input.length)) ∧
    (Config.Within config.maxLength input.length →
      (∀ limit ∈ config.maxParams, limit < (pairs input).length →
        parse config input = .error (.tooManyParameters limit (pairs input).length)) ∧
      (Config.Within config.maxParams (pairs input).length → ∀ doc,
        (parse config input = .ok doc ↔
          parse config.unlimited input = .ok doc ∧ Config.Within config.maxDepth doc.nesting) ∧
        (parse config.unlimited input = .ok doc →
          ∀ limit ∈ config.maxDepth, limit < doc.nesting →
            ∃ front pair back, pairs input = front ++ pair :: back ∧
              (∀ earlier ∈ front, earlier.groups ≤ limit) ∧ limit < pair.groups ∧
                parse config input =
                  .error (.depthExceeded (Utf8.lossy pair.key) pair.groups limit)))) ∧
    ∀ wide : Config, wide.Loosens config → ∀ doc, parse config input = .ok doc →
      parse wide input = .ok doc :=
  ⟨fun _ hlimit h => parse_eq_inputTooLong hlimit h,
    fun hlength =>
      ⟨fun _ hlimit h => parse_eq_tooManyParameters hlength hlimit h,
        fun hparams _ =>
          ⟨parse_eq_ok_iff_nesting hlength hparams,
            fun h _ hlimit hdeep => exists_deep_pair hlength hparams h hlimit hdeep⟩⟩,
    fun _ hwide _ h => parse_of_loosens hwide h⟩

/-- The second of two keys is the first that is too deep. -/
theorem parse_second_key_too_deep :
    let doc : Document :=
      ⟨[("a", .map [("b", .scalar "1")]), ("c", .map [("d", .map [("e", .scalar "2")])])]⟩
    parse {} (Utf8.encode "a[b]=1&c[d][e]=2") = .ok doc ∧ 1 < doc.nesting ∧
      parse { maxDepth := some 1 } (Utf8.encode "a[b]=1&c[d][e]=2") =
        .error (.depthExceeded "c[d][e]" 2 1) := by
  intro doc
  have hread : parse {} (Utf8.encode "a[b]=1&c[d][e]=2") = .ok doc := by cbv
  have hdeep : 1 < doc.nesting := by cbv
  have hpairs : pairs (Utf8.encode "a[b]=1&c[d][e]=2") =
      [⟨Utf8.encode "a[b]", Utf8.encode "1"⟩, ⟨Utf8.encode "c[d][e]", Utf8.encode "2"⟩] := by cbv
  obtain ⟨-, hwithin, -⟩ :=
    parse_within_limits { maxDepth := some 1 } (Utf8.encode "a[b]=1&c[d][e]=2")
  obtain ⟨front, pair, back, hsplit, hfront, hpair, herror⟩ :=
    ((hwithin (Config.within_none _)).2 (Config.within_none _) doc).2 hread 1 rfl hdeep
  refine ⟨hread, hdeep, ?_⟩
  rw [hpairs] at hsplit
  cases front with
  | nil =>
    cases hsplit
    exact absurd hpair (by cbv)
  | cons first front =>
    cases front with
    | nil =>
      cases hsplit
      rw [herror]
      cbv
    | cons => simp at hsplit

end Query

end NestedQuery
