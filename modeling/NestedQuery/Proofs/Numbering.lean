import NestedQuery.Proofs.Indexing
import NestedQuery.Proofs.Strictness

/-!
# Queries with their appends numbered

An append is short for an index. `numbered` replaces each empty group in the keys of a query by the
index of the slot that it resolves to, in the tree that the pairs before it have made. Read back,
the new keys lead to the places of the old ones (`decode_fill`, `readWrite_fillSegment`), so that
they make of the indexed tree what those have made of the tree (`exists_numberAll`):
`parse_numbered`.
-/

namespace NestedQuery

/-! ### Keys with their appends numbered -/

/-- The positions that the appends of a path take, given the place it leads to. -/
def KeyPath.positions : List Segment → List Segment → List Nat
  | .append :: path, .index position :: place => position :: positions path place
  | _ :: path, _ :: place => positions path place
  | _, _ => []

namespace RawSegment
variable {read : Bool} {offset position : Nat} {content : List UInt8} {s : Segment}

/-- Where a group stands in its key does not matter to what it is read as. -/
theorem decode_classify_position (position' : Nat)
    (h : (classify content position).decode read offset = .ok s) :
    (classify content position').decode read offset = .ok s := by
  unfold classify at h ⊢
  split_ifs at h ⊢
  · exact h
  · exact h
  · obtain ⟨text, htext, rfl⟩ := Result.map_eq_ok.1 h
    exact Result.map_eq_ok.2 ⟨text, Percent.decode_offset htext, rfl⟩

/-- Just the empty groups are appends. -/
theorem decode_classify_append (h : (classify content position).decode read offset = .ok s) :
    s = .append ↔ content = [] := by
  unfold classify at h
  split_ifs at h with hempty
  · cases h
    simpa using hempty
  · cases h
    simpa using hempty
  · obtain ⟨text, -, rfl⟩ := Result.map_eq_ok.1 h
    simpa using hempty

end RawSegment

namespace RawKeyPath

/-- Writes positions into the empty brackets of a key, one after another. -/
def fill : List Nat → List UInt8 → List UInt8
  | position :: positions, b :: bytes =>
    if b = Byte.openBracket ∧ bytes.head? = some Byte.closeBracket then
      b :: Utf8.encode (toString position) ++ fill positions bytes
    else b :: fill (position :: positions) bytes
  | _, bytes => bytes

variable {positions : List Nat} {content rest : List UInt8}

theorem fill_nil (bytes : List UInt8) : fill [] bytes = bytes := by
  cases bytes <;> rfl

theorem fill_cons_of_ne {b : UInt8} (h : b ≠ Byte.openBracket) :
    fill positions (b :: rest) = b :: fill positions rest := by
  cases positions with
  | nil => rw [fill_nil, fill_nil]
  | cons position positions => exact if_neg fun hb => h hb.1

theorem fill_bare (h : Bare content) : fill positions (content ++ rest) =
    content ++ fill positions rest := by
  induction content with
  | nil => rfl
  | cons b content ih =>
    obtain ⟨hb, hcontent⟩ := List.forall_mem_cons.1 h
    have hne : b ≠ Byte.openBracket := by
      rintro rfl
      cases hb
    rw [List.cons_append, fill_cons_of_ne hne, ih hcontent, List.cons_append]

theorem fill_close (positions : List Nat) (rest : List UInt8) :
    fill positions (Byte.closeBracket :: rest) = Byte.closeBracket :: fill positions rest :=
  fill_cons_of_ne (by decide)

theorem fill_empty_group (position : Nat) (positions : List Nat) (rest : List UInt8) :
    fill (position :: positions) (group [] ++ rest) =
      group (Utf8.encode (toString position)) ++ fill positions rest := by
  have hopen : fill (position :: positions) (Byte.openBracket :: Byte.closeBracket :: rest) =
      Byte.openBracket :: Utf8.encode (toString position) ++
        fill positions (Byte.closeBracket :: rest) := if_pos ⟨rfl, rfl⟩
  rw [fill_close] at hopen
  simpa [group] using hopen

theorem fill_group (h : Bare content) (hne : content ≠ []) :
    fill positions (group content ++ rest) = group content ++ fill positions rest := by
  obtain ⟨b, content, rfl⟩ := List.exists_cons_of_ne_nil hne
  have hb : b ≠ Byte.closeBracket := by
    rintro rfl
    cases h _ (List.mem_cons_self ..)
  have hopen : fill positions (Byte.openBracket :: (b :: content ++ Byte.closeBracket :: rest)) =
      Byte.openBracket :: fill positions (b :: content ++ Byte.closeBracket :: rest) := by
    cases positions with
    | nil => rw [fill_nil, fill_nil]
    | cons position positions => exact if_neg fun hempty => hb (Option.some.inj hempty.2)
  rw [fill_bare h, fill_close] at hopen
  simpa [group] using hopen

theorem mem_fill {b : UInt8} {bytes : List UInt8} (h : b ∈ fill positions bytes) :
    b ∈ bytes ∨ Byte.isDigit b = true := by
  fun_induction fill positions bytes with
  | case1 position positions first bytes hempty ih =>
    rcases List.mem_append.1 h with h | h
    · rcases List.mem_cons.1 h with rfl | h
      · exact .inl (List.mem_cons_self ..)
      · exact .inr (List.all_eq_true.1 (Byte.all_isDigit_decimal position) b h)
    · exact (ih h).imp_left (List.mem_cons_of_mem _)
  | case2 position positions first bytes hempty ih =>
    rcases List.mem_cons.1 h with rfl | h
    · exact .inl (List.mem_cons_self ..)
    · exact (ih h).imp_left (List.mem_cons_of_mem _)
  | case3 => exact .inl h

/-- The place is that of the path, with its appends numbered. -/
abbrev Numbers (path place : List Segment) : Prop :=
  List.Forall₂ (fun s slot => ∃ count < indexBound, s.slot count = slot) path place

theorem decode_fill {read : Bool} {offset position : Nat} {contents : List (List UInt8)}
    {path place : List Segment} (hbare : ∀ c ∈ contents, Bare c)
    (hpath : (classifyAll position contents).mapM (RawSegment.decode read offset) = .ok path)
    (hplace : Numbers path place) :
    ∃ filled, (∀ c ∈ filled, Bare c) ∧
      fill (KeyPath.positions path place) (contents.flatMap group) = filled.flatMap group ∧
        ∀ position, (classifyAll position filled).mapM (RawSegment.decode read offset) =
          .ok place := by
  induction contents generalizing position path place with
  | nil =>
    cases hpath
    cases hplace
    exact ⟨[], by simp, rfl, fun _ => rfl⟩
  | cons content contents ih =>
    obtain ⟨hcontent, hcontents⟩ := List.forall_mem_cons.1 hbare
    rw [classifyAll, List.mapM_cons] at hpath
    obtain ⟨s, hs, hpath⟩ := Result.bind_eq_ok.1 hpath
    obtain ⟨path, hmap, hpath⟩ := Result.bind_eq_ok.1 hpath
    cases hpath
    obtain ⟨_, place, ⟨count, hcount, rfl⟩, hrest, rfl⟩ := List.forall₂_cons_left_iff.1 hplace
    obtain ⟨filled, hfilled, hfill, hdecode⟩ := ih hcontents hmap hrest
    have happend := RawSegment.decode_classify_append hs
    by_cases hempty : content = []
    · obtain rfl := happend.2 hempty
      rw [hempty, List.flatMap_cons]
      refine ⟨Utf8.encode (toString count) :: filled, ?_, ?_, fun position => ?_⟩
      · refine List.forall_mem_cons.2 ⟨fun b hb => ?_, hfilled⟩
        have hdigit := List.all_eq_true.1 (Byte.all_isDigit_decimal count) b hb
        exact Percent.isBracket_of_isCanonical b (Canonical.isCanonical_of_isDigit hdigit)
      · rw [Segment.slot, KeyPath.positions, fill_empty_group, hfill, List.flatMap_cons]
      · rw [classifyAll, List.mapM_cons, Canonical.classify_index hcount, hdecode]
        rfl
    · obtain ⟨hslot, hpositions⟩ : s.slot count = s ∧
          KeyPath.positions (s :: path) (s :: place) = KeyPath.positions path place := by
        cases s with
        | name | index => exact ⟨rfl, rfl⟩
        | append => exact absurd (happend.1 rfl) hempty
      rw [hslot, hpositions, List.flatMap_cons]
      refine ⟨content :: filled, List.forall_mem_cons.2 ⟨hcontent, hfilled⟩, ?_, fun position => ?_⟩
      · rw [fill_group hcontent hempty, hfill, List.flatMap_cons]
      · rw [classifyAll, List.mapM_cons, RawSegment.decode_classify_position _ hs, hdecode]
        rfl

theorem numbers_locate {path : List Segment} {value? : Option Value}
    (h : ∀ position, .index position ∈ Value.locate value? path → position < indexBound) :
    Numbers path (Value.locate value? path) := by
  induction path generalizing value? with
  | nil => exact .nil
  | cons s path ih =>
    rw [Value.locate] at h ⊢
    refine .cons ?_ (ih fun position hposition => h position (List.mem_cons_of_mem _ hposition))
    cases s with
    | name | index => exact ⟨0, by decide, rfl⟩
    | append => exact ⟨_, h _ (List.mem_cons_self ..), rfl⟩

end RawKeyPath

namespace Query
variable {config : Config} {offset : Nat} {positions : List Nat} {segment : List UInt8}

/-- The segment with positions written into the appends of its key. -/
def fillSegment (positions : List Nat) (segment : List UInt8) : List UInt8 :=
  RawKeyPath.fill positions (segment.takeWhile (· != Byte.equals)) ++
    segment.dropWhile (· != Byte.equals)

/-- Numbers the appends of segments, each in the tree that those before it have made. -/
def numberAll (config : Config) (tree : Tree) : List (List UInt8) → Result (List (List UInt8))
  | [] => .ok []
  | segment :: segments =>
    match write? config segment with
    | none => (segment :: ·) <$> numberAll config tree segments
    | some (path, text) => do
      let positions := KeyPath.positions path.segments (tree.finish.locate path).segments
      let next ← tree.insert path text
      let later ← numberAll config next segments
      return fillSegment positions segment :: later

/-- The query with each append of a key replaced by the index of the slot that it has resolved
to. -/
def numbered (config : Config) (input : List UInt8) : Result (List UInt8) := do
  let (bytes, offset) := body input
  let parts ← numberAll config .empty (segments bytes)
  return input.take offset ++ List.intercalate [Byte.ampersand] parts

theorem mem_fillSegment {b : UInt8} (h : b ∈ fillSegment positions segment) :
    b ∈ segment ∨ Byte.isDigit b = true := by
  rcases List.mem_append.1 h with h | h
  · exact (RawKeyPath.mem_fill h).imp_left fun h => (List.takeWhile_sublist _).subset h
  · exact .inl ((List.dropWhile_sublist _).subset h)

theorem ofSegment_fillSegment (positions : List Nat) (segment : List UInt8) :
    Pair.ofSegment (fillSegment positions segment) =
      ⟨RawKeyPath.fill positions (Pair.ofSegment segment).key, (Pair.ofSegment segment).value⟩ := by
  have hkey : ∀ b ∈ RawKeyPath.fill positions (segment.takeWhile (· != Byte.equals)),
      (b != Byte.equals) = true := by
    intro b hb
    rcases RawKeyPath.mem_fill hb with hb | hb
    · exact List.mem_takeWhile_imp (p := (· != Byte.equals)) hb
    · rw [bne_iff_ne]
      rintro rfl
      cases hb
  have hrest : (segment.dropWhile (· != Byte.equals)).takeWhile (· != Byte.equals) = [] := by
    have hcut := List.takeWhile_append_dropWhile (p := (· != Byte.equals))
      (l := segment.dropWhile (· != Byte.equals))
    rw [List.dropWhile_idempotent] at hcut
    simpa using hcut
  rw [Pair.ofSegment, fillSegment, List.takeWhile_append_of_pos hkey,
    List.dropWhile_append_of_pos hkey, List.dropWhile_idempotent, hrest, List.append_nil]
  rfl

theorem readWrite_fillSegment {path : KeyPath} {text : String} {place : List Segment}
    (h : readWrite config.unlimited offset segment = .ok (some (path, text)))
    (hplace : RawKeyPath.Numbers path.segments place) :
    readWrite config.unlimited offset
      (fillSegment (KeyPath.positions path.segments place) segment) =
        .ok (some (⟨path.root, place⟩, text)) := by
  obtain ⟨text', htext, ⟨-, hnone⟩ | ⟨-, path', hpath, hwrite⟩⟩ := readWrite_eq_ok.1 h
  · cases hnone
  cases hwrite
  obtain ⟨raw, hraw, -, hdecode⟩ := Pair.readKey_eq_ok.1 hpath
  obtain ⟨hne, contents, hsplits, hsegments⟩ := RawKeyPath.tokenize_eq_ok_iff.1 hraw
  obtain ⟨root, hroot, hdecode⟩ := Result.bind_eq_ok.1 hdecode
  obtain ⟨segments, hmap, hdecode⟩ := Result.bind_eq_ok.1 hdecode
  cases hdecode
  obtain ⟨hbare, hcontents⟩ := List.forall_mem_cons.1 hsplits.bare
  rw [hsegments] at hmap
  obtain ⟨filled, hfilled, hfill, hplaced⟩ := RawKeyPath.decode_fill hcontents hmap hplace
  have hkey : RawKeyPath.fill (KeyPath.positions segments place) (Pair.ofSegment segment).key =
      raw.root ++ filled.flatMap RawKeyPath.group := by
    rw [hsplits.eq, RawKeyPath.fill_bare hbare, hfill]
  refine readWrite_eq_ok.2 ⟨text, ?_, .inr ⟨?_, ⟨root, place⟩, ?_, rfl⟩⟩
  · rw [ofSegment_fillSegment]
    exact Percent.decode_offset htext
  · rw [ofSegment_fillSegment, hkey]
    exact List.append_ne_nil_of_left_ne_nil hne _
  · rw [ofSegment_fillSegment, hkey]
    refine Pair.readKey_eq_ok.2
      ⟨⟨raw.root, RawKeyPath.classifyAll raw.root.length filled⟩, ?_, rfl, ?_⟩
    · exact RawKeyPath.tokenize_eq_ok_iff.2
        ⟨hne, filled, ⟨List.forall_mem_cons.2 ⟨hbare, hfilled⟩, rfl⟩, rfl⟩
    · exact Result.bind_eq_ok.2 ⟨root, hroot, Result.bind_eq_ok.2 ⟨place, hplaced _, rfl⟩⟩

theorem write?_eq_of_readWrite {w : Option (KeyPath × String)}
    (h : readWrite config.unlimited offset segment = .ok w) : write? config segment = w := by
  rw [write?, readWrite_offset 0 h]

theorem filterMap_write?_nonempty (parts : List (List UInt8)) :
    (parts.filter (!·.isEmpty)).filterMap (write? config) = parts.filterMap (write? config) := by
  rw [List.filterMap_filter]
  refine List.filterMap_congr fun segment _ => ?_
  cases segment with
  | nil => rfl
  | cons => rfl

theorem cleanSegment_of_clean {input : List UInt8} (h : Clean input) :
    ∀ segment ∈ segments (body input).1, CleanSegment segment := by
  intro segment hsegment
  cases segment with
  | nil => exact (exists_readWrite_iff {} 0 []).1 ⟨none, rfl⟩
  | cons b rest => exact (clean_iff input).1 h _ (List.mem_filter.2 ⟨hsegment, rfl⟩)

/-- A query has at most as many writes as bytes. -/
theorem length_filterMap_write?_le (config : Config) (input : List UInt8) :
    ((segments (body input).1).filterMap (write? config)).length ≤ input.length := by
  rw [← filterMap_write?_nonempty]
  refine (List.length_filterMap_le _ _).trans ?_
  rw [← List.countP_eq_length_filter]
  exact (countP_segments_le _).trans (length_body_le input)

/-- A segment of a query that is read wherever it stands, and as a write without appends. -/
structure AppendFree (config : Config) (part : List UInt8) : Prop where
  clean : CleanSegment part
  ne_ampersand : ∀ b ∈ part, b ≠ Byte.ampersand
  places : ∀ write ∈ write? config part, .append ∉ write.1.segments

theorem appendFree_fillSegment {path : KeyPath} {text : String} {place : List Segment}
    (h : CleanSegment segment) (hampersand : ∀ b ∈ segment, b ≠ Byte.ampersand)
    (hwrite : write? config segment = some (path, text))
    (hplace : RawKeyPath.Numbers path.segments place) (happend : .append ∉ place) :
    let part := fillSegment (KeyPath.positions path.segments place) segment
    AppendFree config part ∧ write? config part = some (⟨path.root, place⟩, text) := by
  intro part
  have hread : readWrite config.unlimited 0 segment = .ok (some (path, text)) := by
    rw [readWrite_of_clean h, hwrite]
  have hpart := readWrite_fillSegment hread hplace
  have hwrite' := write?_eq_of_readWrite hpart
  refine ⟨⟨(exists_readWrite_iff config 0 part).1 ⟨_, hpart⟩, fun b hb => ?_, ?_⟩, hwrite'⟩
  · rcases mem_fillSegment hb with hb | hb
    · exact hampersand b hb
    · rintro rfl
      cases hb
  · rw [hwrite']
    rintro _ ⟨⟩
    exact happend

/-- The writes of the numbered segments make of the indexed tree what those of the segments make of
the tree. -/
theorem exists_numberAll {tree final : Tree} {history : List (Trail × String)}
    {segments : List (List UInt8)} (holds : tree.Holds history)
    (hclean : ∀ segment ∈ segments, CleanSegment segment)
    (hampersand : ∀ segment ∈ segments, ∀ b ∈ segment, b ≠ Byte.ampersand)
    (hlen : history.length + (segments.filterMap (write? config)).length ≤ indexBound)
    (h : (segments.filterMap (write? config)).foldlM
      (fun tree write => tree.insert write.1 write.2) tree = .ok final) :
    ∃ parts, numberAll config tree segments = .ok parts ∧ (∀ part ∈ parts, AppendFree config part) ∧
      (parts.filterMap (write? config)).foldlM
        (fun tree write => tree.insert write.1 write.2) tree.indexed = .ok final.indexed := by
  induction segments generalizing tree history with
  | nil =>
    cases h
    exact ⟨[], rfl, by simp, rfl⟩
  | cons segment segments ih =>
    obtain ⟨hsegment, hclean⟩ := List.forall_mem_cons.1 hclean
    obtain ⟨hfirst, hampersand⟩ := List.forall_mem_cons.1 hampersand
    rw [numberAll]
    cases hwrite : write? config segment with
    | none =>
      rw [List.filterMap_cons_none hwrite] at h hlen
      obtain ⟨parts, hparts, hfree, hrun⟩ := ih holds hclean hampersand hlen h
      refine ⟨segment :: parts, by rw [hparts]; rfl, ?_, ?_⟩
      · exact List.forall_mem_cons.2 ⟨⟨hsegment, hfirst, by simp [hwrite]⟩, hfree⟩
      · rw [List.filterMap_cons_none hwrite]
        exact hrun
    | some write =>
      obtain ⟨path, text⟩ := write
      rw [List.filterMap_cons_some hwrite] at h hlen
      obtain ⟨next, hinsert, h⟩ := Result.bind_eq_ok.1 h
      replace hinsert : tree.insert path text = .ok next := hinsert
      rw [List.length_cons] at hlen
      have hstep := holds.step_of_locate hinsert (by omega)
      obtain ⟨parts, hparts, hfree, hrun⟩ := ih (holds.insert hinsert) hclean hampersand
        (by simp only [Tree.record, List.length_append, List.length_singleton]; omega) h
      have hplace : RawKeyPath.Numbers path.segments (tree.finish.locate path).segments :=
        RawKeyPath.numbers_locate fun position hposition =>
          (hstep _ (List.mem_cons_of_mem _ hposition)).2 position rfl
      have happend : .append ∉ (tree.finish.locate path).segments := fun hmem =>
        (hstep _ (List.mem_cons_of_mem _ hmem)).1 rfl
      obtain ⟨hpart, hwrite'⟩ :=
        appendFree_fillSegment hsegment hfirst hwrite hplace happend
      dsimp only
      rw [hinsert, Result.ok_bind, hparts]
      refine ⟨_, rfl, List.forall_mem_cons.2 ⟨hpart, hfree⟩, ?_⟩
      rw [List.filterMap_cons_some hwrite', List.foldlM_cons]
      exact Result.bind_eq_ok.2 ⟨next.indexed, Tree.insert_locate hinsert, hrun⟩

theorem take_body (input : List UInt8) :
    input.take (body input).2 = [] ∨ input.take (body input).2 = [Byte.questionMark] := by
  cases input with
  | nil => exact .inl rfl
  | cons b rest =>
    rw [body]
    split
    · rename_i hb
      exact .inr (by rw [hb]; rfl)
    · exact .inl rfl

/-- A write without appends is found in the document under its own key. -/
theorem at?_of_write {writes : List (KeyPath × String)} {tree : Tree}
    (h : Tree.ofWrites writes = .ok tree) {write : KeyPath × String} (hwrite : write ∈ writes)
    (happend : .append ∉ write.1.segments) :
    tree.finish.at? write.1 = some (.scalar write.2) := by
  have hsteps : .append ∉ write.1.steps := by simpa [KeyPath.steps] using happend
  have hmem := Tree.mem_leaves_of_write h hwrite hsteps
  exact Value.foldl_child?_of_mem_leaves (Tree.holds_of_ofWrites h).distinct_finish _ hmem

/-- An append is short for the index of the slot it resolves to: with all appends of its keys
numbered, an accepted query is accepted, and spells the same document. Then every key says where its
text stands. No input in memory is longer than the bound, beyond which digits are no index. -/
theorem parse_numbered (config : Config) {input : List UInt8} {doc : Document}
    (hlen : input.length ≤ indexBound) (h : parse config.unlimited input = .ok doc) :
    ∃ filled, numbered config input = .ok filled ∧ parse config.unlimited filled = .ok doc ∧
      ∀ segment ∈ spellings filled, ∀ write ∈ write? config segment,
        .append ∉ write.1.segments ∧ doc.at? write.1 = some (.scalar write.2) := by
  have hclean := clean_of_parse config h
  rw [parse_of_clean hclean, spellings, filterMap_write?_nonempty, Result.map_eq_ok] at h
  obtain ⟨tree, htree, rfl⟩ := h
  have hcount := (length_filterMap_write?_le config input).trans hlen
  obtain ⟨parts, hparts, hfree, hrun⟩ := exists_numberAll Tree.holds_empty
    (cleanSegment_of_clean hclean) ne_ampersand_of_mem_segments (by simpa using hcount) htree
  obtain ⟨hfilled, hspellings⟩ := clean_of_segments (take_body input)
    (fun part hpart => (hfree part hpart).clean)
    fun part hpart => (hfree part hpart).ne_ampersand
  refine ⟨input.take (body input).2 ++ List.intercalate [Byte.ampersand] parts,
    Result.bind_eq_ok.2 ⟨parts, hparts, rfl⟩, ?_, fun segment hsegment write hwrite => ?_⟩
  · rw [parse_of_clean hfilled, hspellings, filterMap_write?_nonempty]
    exact Result.map_eq_ok.2 ⟨tree.indexed, hrun, tree.finish_indexed⟩
  · rw [hspellings] at hsegment
    have hpart := (List.mem_filter.1 hsegment).1
    have happend := (hfree segment hpart).places write hwrite
    refine ⟨happend, ?_⟩
    rw [← tree.finish_indexed]
    exact at?_of_write hrun (List.mem_filterMap.2 ⟨segment, hpart, hwrite⟩) happend

/-- Both appends of the first key make a list; the brackets of the value are no append. -/
theorem parse_numbered_nested :
    (Utf8.encode "?a[][]=1&&a[][b]=[]").length ≤ indexBound ∧
      parse {} (Utf8.encode "?a[][]=1&&a[][b]=[]") =
        .ok ⟨[("a", .list [.list [.scalar "1"], .map [("b", .scalar "[]")]])]⟩ ∧
      ∃ filled, numbered {} (Utf8.encode "?a[][]=1&&a[][b]=[]") = .ok filled ∧
        filled = Utf8.encode "?a[0][0]=1&&a[1][b]=[]" ∧
        parse {} filled =
          .ok ⟨[("a", .list [.list [.scalar "1"], .map [("b", .scalar "[]")]])]⟩ := by
  have hlen : (Utf8.encode "?a[][]=1&&a[][b]=[]").length ≤ indexBound := by decide
  have h : parse {} (Utf8.encode "?a[][]=1&&a[][b]=[]") =
      .ok ⟨[("a", .list [.list [.scalar "1"], .map [("b", .scalar "[]")]])]⟩ := by cbv
  have hnumbered : numbered {} (Utf8.encode "?a[][]=1&&a[][b]=[]") =
      .ok (Utf8.encode "?a[0][0]=1&&a[1][b]=[]") := by cbv
  obtain ⟨filled, hfilled, hparse, -⟩ := parse_numbered {} hlen h
  exact ⟨hlen, h, filled, hfilled, Except.ok.inj (hfilled.symm.trans hnumbered), hparse⟩

end Query

end NestedQuery
