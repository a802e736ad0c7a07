import NestedQuery.Proofs.Kinds
import NestedQuery.Proofs.Limits

/-!
# What a query may look like

Whether an input is `Clean` is seen from its bytes: it is strict as a whole, its keys are of the
grammar, and what its components spell is UTF-8. A reader looks at one component after another, but
the two come to the same, as no separator is part of an escape (`exists_readWrite_iff` for one
segment, `clean_iff` for all). To read a clean query is to make the writes of its pairs, whichever
they are and wherever they stand (`parse_of_clean`). So a reader accepts nothing but clean inputs,
and refuses a clean one for a conflict only: `parse_clean`.
-/

namespace NestedQuery

namespace RawSegment

/-- A group can be read whatever it is read as, even the digits of an index. -/
theorem exists_decode_classify_iff {read : Bool} {offset : Nat} (content : List UInt8)
    (position : Nat) :
    (∃ s, (classify content position).decode read offset = .ok s) ↔
      Percent.Strict content ∧ Utf8.Valid (Percent.unescape content) := by
  have hname : (∃ s, (name content position).decode read offset = .ok s) ↔
      Percent.Strict content ∧ Utf8.Valid (Percent.unescape content) := by
    have hdecode := Percent.exists_decode_iff read (offset + position) content
    rw [← hdecode]
    exact Result.exists_map_eq_ok
  by_cases hdigits : content.all Byte.isDigit = true
  · obtain ⟨hstrict, hunescape⟩ := Percent.strict_of_digits hdigits
    have hvalid : Utf8.Valid (Percent.unescape content) := by
      rw [hunescape]
      refine Utf8.valid_of_ascii fun b hb => ?_
      have hb := List.all_eq_true.1 hdigits b hb
      simp only [Byte.isDigit, Bool.and_eq_true, decide_eq_true_eq] at hb
      exact UInt8.lt_of_le_of_lt hb.2 (by decide)
    refine ⟨fun _ => ⟨hstrict, hvalid⟩, fun h => ?_⟩
    rw [classify]
    split_ifs
    exacts [⟨.append, rfl⟩, ⟨.index _, rfl⟩, hname.2 h]
  · have hempty : content.isEmpty = false := by
      cases content with
      | nil => exact absurd rfl hdigits
      | cons => rfl
    rw [classify, hempty, Bool.eq_false_of_not_eq_true hdigits]
    exact hname

end RawSegment

namespace RawKeyPath

theorem strict_groups {front : List UInt8} {contents : List (List UInt8)} :
    Percent.Strict (front ++ contents.flatMap group) ↔
      Percent.Strict front ∧ ∀ c ∈ contents, Percent.Strict c := by
  induction contents generalizing front with
  | nil => simp
  | cons content contents ih =>
    have hopen : Percent.Strict (front ++ (content :: contents).flatMap group) ↔
        Percent.Strict front ∧
          Percent.Strict (content ++ Byte.closeBracket :: contents.flatMap group) := by
      rw [← Percent.strict_cut (b := Byte.openBracket) (by simp)]
      simp [group]
    rw [hopen, Percent.strict_cut (by simp), ← List.nil_append (contents.flatMap group), ih,
      List.forall_mem_cons]
    simp [Percent.strict_nil]

theorem exists_decode_classifyAll_iff (read : Bool) (offset position : Nat)
    (contents : List (List UInt8)) :
    (∃ segments, (classifyAll position contents).mapM (RawSegment.decode read offset) =
        .ok segments) ↔
      ∀ c ∈ contents, Percent.Strict c ∧ Utf8.Valid (Percent.unescape c) := by
  rw [Result.exists_mapM_eq_ok_iff]
  induction contents generalizing position with
  | nil => simp [classifyAll]
  | cons content contents ih =>
    rw [classifyAll, List.forall_mem_cons, List.forall_mem_cons, ih,
      RawSegment.exists_decode_classify_iff]

end RawKeyPath

namespace Query

/-! ### Clean inputs -/

/-- A key is empty, or a root without brackets and then groups; what it spells is UTF-8. -/
def CleanKey (key : List UInt8) : Prop :=
  key = [] ∨ ∃ root contents, root ≠ [] ∧ RawKeyPath.Splits key root contents ∧
    ∀ c ∈ root :: contents, Utf8.Valid (Percent.unescape c)

structure CleanPair (pair : Pair) : Prop where
  key : CleanKey pair.key
  value : Utf8.Valid (Percent.unescape pair.value)

/-- A segment that is read, wherever it stands in a query. -/
def CleanSegment (segment : List UInt8) : Prop :=
  Percent.Strict segment ∧ CleanPair (Pair.ofSegment segment)

structure Clean (input : List UInt8) : Prop where
  strict : Percent.Strict (body input).1
  pair : ∀ pair ∈ pairs input, CleanPair pair

variable {config : Config} {offset : Nat}

theorem strict_intercalate (parts : List (List UInt8)) :
    Percent.Strict (List.intercalate [Byte.ampersand] parts) ↔
      ∀ p ∈ parts, Percent.Strict p := by
  induction parts with
  | nil => simp [Percent.strict_nil]
  | cons first others ih =>
    cases others with
    | nil => simp
    | cons second others =>
      rw [List.intercalate_cons_cons, List.append_assoc, List.singleton_append,
        Percent.strict_cut (by simp), ih, List.forall_mem_cons (a := first)]

theorem strict_ofSegment (segment : List UInt8) :
    Percent.Strict segment ↔
      Percent.Strict (Pair.ofSegment segment).key ∧
        Percent.Strict (Pair.ofSegment segment).value := by
  rcases Pair.ofSegment_cut segment with ⟨hkey, hvalue⟩ | hcut
  · rw [hvalue, ← hkey]
    simp [Percent.strict_nil]
  · rw [← Percent.strict_cut (b := Byte.equals) (by simp), ← hcut]

/-- A key is read if it is of the grammar and its names are read. -/
theorem exists_readKey_iff {pair : Pair} (hkey : pair.key ≠ []) :
    (∃ path, pair.readKey config.unlimited offset = .ok path) ↔
      Percent.Strict pair.key ∧ CleanKey pair.key := by
  constructor
  · rintro ⟨path, hpath⟩
    obtain ⟨raw, hraw, -, hdecode⟩ := Pair.readKey_eq_ok.1 hpath
    obtain ⟨hne, contents, hsplits, hsegments⟩ := RawKeyPath.tokenize_eq_ok_iff.1 hraw
    obtain ⟨root, hroot, hdecode⟩ := Result.bind_eq_ok.1 hdecode
    obtain ⟨segments, hmap, -⟩ := Result.bind_eq_ok.1 hdecode
    rw [hsegments] at hmap
    have hcontents := (RawKeyPath.exists_decode_classifyAll_iff _ _ _ _).1 ⟨segments, hmap⟩
    obtain ⟨hstrict, hvalid⟩ := (Percent.exists_decode_iff _ _ _).1 ⟨root, hroot⟩
    constructor
    · rw [hsplits.eq, RawKeyPath.strict_groups]
      exact ⟨hstrict, fun c hc => (hcontents c hc).1⟩
    · refine .inr ⟨raw.root, contents, hne, hsplits, List.forall_mem_cons.2 ⟨hvalid, ?_⟩⟩
      exact fun c hc => (hcontents c hc).2
  · rintro ⟨hstrict, hnil | ⟨root, contents, hne, hsplits, hvalid⟩⟩
    · exact absurd hnil hkey
    · rw [hsplits.eq, RawKeyPath.strict_groups] at hstrict
      obtain ⟨hroot, hcontents⟩ := List.forall_mem_cons.1 hvalid
      obtain ⟨text, htext⟩ := (Percent.exists_decode_iff config.spaceAsPlus offset root).2
        ⟨hstrict.1, hroot⟩
      obtain ⟨segments, hsegments⟩ := (RawKeyPath.exists_decode_classifyAll_iff
        config.spaceAsPlus offset root.length contents).2
          fun c hc => ⟨hstrict.2 c hc, hcontents c hc⟩
      refine ⟨⟨text, segments⟩, Pair.readKey_eq_ok.2
        ⟨⟨root, RawKeyPath.classifyAll root.length contents⟩, ?_, rfl, ?_⟩⟩
      · exact RawKeyPath.tokenize_eq_ok_iff.2 ⟨hne, contents, hsplits, rfl⟩
      · exact Result.bind_eq_ok.2 ⟨text, htext, Result.bind_eq_ok.2 ⟨segments, hsegments, rfl⟩⟩

theorem exists_readWrite_iff (config : Config) (offset : Nat) (segment : List UInt8) :
    (∃ w, readWrite config.unlimited offset segment = .ok w) ↔ CleanSegment segment := by
  have hvalue := Percent.exists_decode_iff config.spaceAsPlus
    (offset + (segment.length - (Pair.ofSegment segment).value.length))
    (Pair.ofSegment segment).value
  rw [CleanSegment, strict_ofSegment]
  constructor
  · rintro ⟨w, hw⟩
    obtain ⟨text, htext, hkey⟩ := readWrite_eq_ok.1 hw
    obtain ⟨hstrict, hvalid⟩ := hvalue.1 ⟨text, htext⟩
    rcases hkey with ⟨hkey, -⟩ | ⟨hkey, path, hpath, -⟩
    · exact ⟨⟨hkey ▸ Percent.strict_nil, hstrict⟩, .inl hkey, hvalid⟩
    · obtain ⟨hkeyStrict, hclean⟩ := (exists_readKey_iff hkey).1 ⟨path, hpath⟩
      exact ⟨⟨hkeyStrict, hstrict⟩, hclean, hvalid⟩
  · rintro ⟨⟨hkeyStrict, hstrict⟩, hclean, hvalid⟩
    obtain ⟨text, htext⟩ := hvalue.2 ⟨hstrict, hvalid⟩
    by_cases hkey : (Pair.ofSegment segment).key = []
    · exact ⟨none, readWrite_eq_ok.2 ⟨text, htext, .inl ⟨hkey, rfl⟩⟩⟩
    · obtain ⟨path, hpath⟩ := (exists_readKey_iff hkey).2 ⟨hkeyStrict, hclean⟩
      exact ⟨_, readWrite_eq_ok.2 ⟨text, htext, .inr ⟨hkey, path, hpath, rfl⟩⟩⟩

theorem clean_iff (input : List UInt8) :
    Clean input ↔ ∀ segment ∈ spellings input, CleanSegment segment := by
  have hstrict : Percent.Strict (body input).1 ↔
      ∀ segment ∈ spellings input, Percent.Strict segment := by
    have hall := strict_intercalate ((body input).1.splitOn Byte.ampersand)
    rw [List.intercalate_splitOn, ← segments_eq_splitOn] at hall
    simp only [hall, spellings, List.mem_filter, and_imp]
    refine forall₂_congr fun segment _ => ⟨fun h _ => h, fun h => ?_⟩
    cases segment with
    | nil => exact Percent.strict_nil
    | cons => exact h rfl
  constructor
  · rintro ⟨h, hpair⟩ segment hsegment
    exact ⟨hstrict.1 h segment hsegment, hpair _ (List.mem_map_of_mem hsegment)⟩
  · intro h
    exact ⟨hstrict.2 fun segment hsegment => (h segment hsegment).1,
      List.forall_mem_map.2 fun segment hsegment => (h segment hsegment).2⟩

/-! ### The writes of clean queries -/

/-- The write that a segment asks for, if it is read and has a key. -/
def write? (config : Config) (segment : List UInt8) : Option (KeyPath × String) :=
  match readWrite config.unlimited 0 segment with
  | .ok w => w
  | .error _ => none

theorem readWrite_of_clean {segment : List UInt8} (h : CleanSegment segment) :
    readWrite config.unlimited offset segment = .ok (write? config segment) := by
  obtain ⟨w, hw⟩ := (exists_readWrite_iff config offset segment).2 h
  rw [write?, readWrite_offset 0 hw]
  exact hw

theorem foldlM_readPair_of_clean {located : List (Nat × List UInt8)}
    (h : ∀ p ∈ located, CleanSegment p.2) (tree : Tree) :
    located.foldlM (fun tree p => readPair config.unlimited p.1 p.2 tree) tree =
      ((located.map Prod.snd).filterMap (write? config)).foldlM
        (fun tree write => tree.insert write.1 write.2) tree := by
  induction located generalizing tree with
  | nil => rfl
  | cons p located ih =>
    obtain ⟨hp, h⟩ := List.forall_mem_cons.1 h
    rw [List.foldlM_cons, readPair_eq, readWrite_of_clean hp, Result.ok_bind, List.map_cons,
      List.filterMap_cons]
    cases write? config p.2 with
    | none => exact ih h tree
    | some write =>
      rw [List.foldlM_cons, perform]
      exact congrArg _ (funext (ih h))

/-- To read a clean query is to make the writes of its pairs. -/
theorem parse_of_clean {input : List UInt8} (h : Clean input) :
    parse config.unlimited input =
      Tree.finish <$> Tree.ofWrites ((spellings input).filterMap (write? config)) := by
  rw [clean_iff, ← map_locatedIn, List.forall_mem_map] at h
  rw [parse_unlimited, foldlM_readPair_of_clean h, map_locatedIn]
  rfl

theorem body_of_strict {bytes : List UInt8} (h : Percent.Strict bytes) :
    body bytes = (bytes, 0) := by
  cases bytes with
  | nil => rfl
  | cons b rest =>
    obtain ⟨-, -, hquestion⟩ := h.plain b (by simp)
    exact if_neg hquestion

/-- Clean segments make up a clean query, with a `?` in front or without. -/
theorem clean_of_segments {lead : List UInt8} (hlead : lead = [] ∨ lead = [Byte.questionMark])
    {parts : List (List UInt8)} (hclean : ∀ p ∈ parts, CleanSegment p)
    (hampersand : ∀ p ∈ parts, ∀ b ∈ p, b ≠ Byte.ampersand) :
    Clean (lead ++ List.intercalate [Byte.ampersand] parts) ∧
      spellings (lead ++ List.intercalate [Byte.ampersand] parts) =
        parts.filter (!·.isEmpty) := by
  have hbody : (body (lead ++ List.intercalate [Byte.ampersand] parts)).1 =
      List.intercalate [Byte.ampersand] parts := by
    rcases hlead with rfl | rfl
    · have hstrict := (strict_intercalate parts).2 fun p hp => (hclean p hp).1
      rw [List.nil_append, body_of_strict hstrict]
    · rfl
  have hspellings : spellings (lead ++ List.intercalate [Byte.ampersand] parts) =
      parts.filter (!·.isEmpty) := by
    rw [spellings, hbody]
    by_cases hnil : parts = []
    · rw [hnil]
      rfl
    · have hmem : ∀ p ∈ parts, Byte.ampersand ∉ p := fun p hp hmem => hampersand p hp _ hmem rfl
      rw [segments_eq_splitOn, List.splitOn_intercalate _ hmem hnil]
  refine ⟨?_, hspellings⟩
  rw [clean_iff, hspellings]
  exact fun p hp => hclean p (List.mem_filter.1 hp).1

/-- Pairs of a clean query make up a clean query, in any choice and order. -/
theorem clean_intercalate {input : List UInt8} (h : Clean input) {parts : List (List UInt8)}
    (hparts : ∀ p ∈ parts, p ∈ spellings input) :
    Clean (List.intercalate [Byte.ampersand] parts) ∧
      spellings (List.intercalate [Byte.ampersand] parts) = parts := by
  rw [clean_iff] at h
  obtain ⟨hclean, hspellings⟩ := clean_of_segments (.inl rfl) (fun p hp => h p (hparts p hp))
    fun p hp => ne_ampersand_of_mem_segments p (List.mem_filter.1 (hparts p hp)).1
  refine ⟨hclean, hspellings.trans ?_⟩
  exact List.filter_eq_self.2 fun p hp => (List.mem_filter.1 (hparts p hp)).2

theorem clean_of_parse (config : Config) {input : List UInt8} {doc : Document}
    (h : parse config.unlimited input = .ok doc) : Clean input := by
  rw [parse_unlimited, Result.map_eq_ok] at h
  obtain ⟨tree, htree, -⟩ := h
  obtain ⟨writes, hwrites, -⟩ := foldlM_readPair_eq_ok.1 htree
  have hread := Result.exists_mapM_eq_ok_iff.1 ⟨writes, hwrites⟩
  rw [clean_iff, ← map_locatedIn, List.forall_mem_map]
  exact fun p hp => (exists_readWrite_iff _ _ _).1 (hread p hp)

/-- Without limits, just the clean inputs pass the checks that look at bytes: whatever is accepted
is clean, and what is clean is accepted unless two of its pairs are in conflict. -/
theorem parse_clean (config : Config) (input : List UInt8) :
    (∀ doc, parse config.unlimited input = .ok doc → Clean input) ∧
      (Clean input → (∃ doc, parse config.unlimited input = .ok doc) ∨
        ∃ key, parse config.unlimited input = .error (.duplicateKey key)) := by
  refine ⟨fun doc => clean_of_parse config, fun hclean => ?_⟩
  rw [parse_of_clean hclean]
  cases hwrites : Tree.ofWrites ((spellings input).filterMap (write? config)) with
  | ok tree => exact .inl ⟨tree.finish, rfl⟩
  | error e =>
    obtain ⟨write, -, tree, h⟩ := Result.exists_of_foldlM_eq_error hwrites
    obtain rfl := Tree.eq_duplicateKey_of_insert h
    exact .inr ⟨write.1.render, rfl⟩

/-- What is accepted is clean even where nothing is written, and what is clean may be refused. -/
theorem clean_refused :
    (parse {} (Utf8.encode "?a[0]=%41&&=b") = .ok ⟨[("a", .list [.scalar "A"])]⟩ ∧
      Clean (Utf8.encode "?a[0]=%41&&=b")) ∧
      Clean (Utf8.encode "a=1&a=2") ∧
        ∃ key, parse {} (Utf8.encode "a=1&a=2") = .error (.duplicateKey key) := by
  have hread : parse {} (Utf8.encode "?a[0]=%41&&=b") = .ok ⟨[("a", .list [.scalar "A"])]⟩ := by
    cbv
  have hclean : Clean (Utf8.encode "a=1&a=2") := by
    have hspellings : spellings (Utf8.encode "a=1&a=2") =
        [Utf8.encode "a=1", Utf8.encode "a=2"] := by cbv
    have hfirst : readWrite {} 0 (Utf8.encode "a=1") = .ok (some (⟨"a", []⟩, "1")) := by cbv
    have hsecond : readWrite {} 0 (Utf8.encode "a=2") = .ok (some (⟨"a", []⟩, "2")) := by cbv
    rw [clean_iff, hspellings, List.forall_mem_cons, List.forall_mem_singleton]
    exact ⟨(exists_readWrite_iff {} 0 _).1 ⟨_, hfirst⟩,
      (exists_readWrite_iff {} 0 _).1 ⟨_, hsecond⟩⟩
  refine ⟨⟨hread, (parse_clean {} _).1 _ hread⟩, hclean, ?_⟩
  rcases (parse_clean {} _).2 hclean with ⟨doc, hdoc⟩ | herror
  · have hrefused : parse {} (Utf8.encode "a=1&a=2") = .error (.duplicateKey "a") := by cbv
    cases hrefused.symm.trans hdoc
  · exact herror

end Query

end NestedQuery
