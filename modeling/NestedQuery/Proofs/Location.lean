import Mathlib
import NestedQuery.Proofs.Conflict
import NestedQuery.Proofs.Decoding
import NestedQuery.Proofs.Grammar

/-!
# Where errors point

An error with an index points into the input, at a byte that is not to stand there
(`Error.Locates`). A reader finds it in a component or a key, at a position that it counts from the
start of the segment; so what is shown of the bytes of a component is carried over to the input by
where the component stands in its segment (`Component.standsAt`) and the segment in the input
(`segmentAt_of_mem`). `parse_error_located` is for all errors of `parse`.
-/

namespace NestedQuery

namespace Percent
variable {α : Type}

theorem exists_of_first? {f : List UInt8 → Option α} {index i : Nat} {bytes : List UInt8} {a : α}
    (h : first? f index bytes = some (a, i)) :
    ∃ front back, bytes = front ++ back ∧ i = index + front.length ∧ f back = some a := by
  induction bytes generalizing index with
  | nil => cases h
  | cons b rest ih =>
    rw [first?, Option.or_eq_some_iff] at h
    rcases h with h | ⟨-, h⟩
    · obtain ⟨found, hfound, heq⟩ := Option.map_eq_some_iff.1 h
      cases heq
      exact ⟨[], b :: rest, rfl, rfl, hfound⟩
    · obtain ⟨front, back, rfl, rfl, hback⟩ := ih h
      refine ⟨b :: front, back, rfl, ?_, hback⟩
      rw [List.length_cons]
      omega

/-- The errors of a component, each with what is seen at the byte that it points at. -/
theorem decode_eq_error {read : Bool} {offset : Nat} {bytes : List UInt8} {e : Error}
    (h : decode read offset bytes = .error e) :
    (e = .invalidUtf8 offset ∧ ¬ Utf8.Valid (unescape bytes)) ∨
      ∃ front back, bytes = front ++ back ∧
        (e = .invalidPercentEncoding (offset + front.length) ∧ malformed? back = some () ∨
          (∃ b, e = .invalidCharacter (Char.ofNat b.toNat) (offset + front.length) ∧
            forbidden? back = some b) ∨
          e = .unexpectedQuestionMark (offset + front.length) ∧ question? back = some ()) := by
  rw [decode_eq] at h
  split at h
  · rename_i i hmalformed
    cases h
    obtain ⟨front, back, hcut, rfl, hback⟩ := exists_of_first? hmalformed
    exact .inr ⟨front, back, hcut, .inl ⟨rfl, hback⟩⟩
  · rename_i hutf8
    cases h
    refine .inl ⟨rfl, ?_⟩
    rw [← valid_unescape_spaces read, Utf8.Valid, hutf8]
    simp
  · rename_i hforbidden
    cases h
    obtain ⟨front, back, hcut, rfl, hback⟩ := exists_of_first? hforbidden
    exact .inr ⟨front, back, hcut, .inr (.inl ⟨_, rfl, hback⟩)⟩
  · rename_i hquestion
    cases h
    obtain ⟨front, back, hcut, rfl, hback⟩ := exists_of_first? hquestion
    exact .inr ⟨front, back, hcut, .inr (.inr ⟨rfl, hback⟩)⟩
  · cases h

end Percent

/-! ### Bytes in their place -/

/-- The bytes do not start with a hex digit, so they complete no escape in front of them. -/
def Delimits (bytes : List UInt8) : Prop :=
  ∀ b ∈ bytes.head?, Byte.hexValue? b = none

theorem delimits_nil : Delimits [] :=
  nofun

theorem delimits_cons {b : UInt8} {bytes : List UInt8} (h : Byte.hexValue? b = none) :
    Delimits (b :: bytes) := by
  rintro _ ⟨⟩
  exact h

theorem Delimits.append {bytes later : List UInt8} (h : Delimits bytes) (hlater : Delimits later) :
    Delimits (bytes ++ later) := by
  cases bytes with
  | nil => exact hlater
  | cons => exact h

/-- The bytes stand in the input at `offset`, with no hex digit right behind them. -/
def StandsAt (input : List UInt8) (offset : Nat) (bytes : List UInt8) : Prop :=
  ∃ back, input.drop offset = bytes ++ back ∧ Delimits back

namespace StandsAt
variable {input bytes : List UInt8} {offset : Nat}

theorem trans (h : StandsAt input offset bytes) (front back : List UInt8) {part : List UInt8}
    (hbytes : bytes = front ++ (part ++ back)) (hback : Delimits back) :
    StandsAt input (offset + front.length) part := by
  obtain ⟨later, hdrop, hlater⟩ := h
  refine ⟨back ++ later, ?_, hback.append hlater⟩
  rw [← List.drop_drop, hdrop, hbytes, List.append_assoc, List.append_assoc, List.drop_left]

theorem lt_length (h : StandsAt input offset bytes) {i : Nat} (hi : i < bytes.length) :
    offset + i < input.length := by
  obtain ⟨back, hdrop, -⟩ := h
  have hlen := congrArg List.length hdrop
  rw [List.length_drop, List.length_append] at hlen
  omega

end StandsAt

namespace Query

/-- The segment starts at `start` in the input: at the front of the query or after a `&`, and goes
up to the next `&` or the end. -/
def SegmentAt (input : List UInt8) (start : Nat) (segment : List UInt8) : Prop :=
  ∃ front back, (body input).1 = front ++ (segment ++ back) ∧
    start = (body input).2 + front.length ∧
    (front = [] ∨ front.getLast? = some Byte.ampersand) ∧
    (back = [] ∨ back.head? = some Byte.ampersand) ∧ Byte.ampersand ∉ segment

/-- The components of a segment, with their positions in it. -/
inductive Component (segment : List UInt8) : Nat → List UInt8 → Prop
  | root {root : List UInt8} {contents : List (List UInt8)}
      (h : RawKeyPath.Splits (Pair.ofSegment segment).key root contents) :
      Component segment 0 root
  | content {root content : List UInt8} {front back : List (List UInt8)}
      (h : RawKeyPath.Splits (Pair.ofSegment segment).key root (front ++ content :: back)) :
      Component segment ((root ++ front.flatMap RawKeyPath.group).length + 1) content
  | value {value : List UInt8}
      (h : segment = (Pair.ofSegment segment).key ++ Byte.equals :: value) :
      Component segment ((Pair.ofSegment segment).key.length + 1) value

end Query

namespace Error

/-- The byte of the input that an error points at. -/
def index? : Error → Option Nat
  | .unmatchedBracket _ i | .unexpectedQuestionMark i | .invalidPercentEncoding i
  | .invalidUtf8 i | .invalidCharacter _ i => some i
  | _ => none

/-- What an error says of the bytes that it points at is so. -/
def Locates (input : List UInt8) : Error → Prop
  | .invalidPercentEncoding i =>
    ∃ rest, input.drop i = Byte.percent :: rest ∧ Percent.escape? rest = none
  | .unexpectedQuestionMark i => 1 ≤ i ∧ ∃ rest, input.drop i = Byte.questionMark :: rest
  | .invalidCharacter c i =>
    ∃ b rest, c = Char.ofNat b.toNat ∧
      ((b = Byte.space ∨ Byte.isControl b = true) ∧ input.drop i = b :: rest ∨
        Byte.isControl b = true ∧ input.drop i = Byte.percent :: rest ∧
          Percent.escape? rest = some b)
  | .invalidUtf8 i =>
    ∃ start segment position bytes, Query.SegmentAt input start segment ∧
      Query.Component segment position bytes ∧ i = start + position ∧
        ¬ Utf8.Valid (Percent.unescape bytes)
  | .unmatchedBracket key i =>
    ∃ start segment position, Query.SegmentAt input start segment ∧
      RawKeyPath.Stray (Query.Pair.ofSegment segment).key position ∧ i = start + position ∧
        key = Utf8.lossy (Query.Pair.ofSegment segment).key
  | _ => True

theorem locates_of_index?_eq_none {e : Error} (h : e.index? = none) (input : List UInt8) :
    e.Locates input := by
  cases e with
  | unmatchedBracket | unexpectedQuestionMark | invalidPercentEncoding | invalidUtf8
  | invalidCharacter => cases h
  | _ => trivial

end Error

/-! ### What is seen at the front of the rest of an input -/

namespace Percent
variable {back : List UInt8}

/-- Whether two hex digits are at the front does not depend on what follows if it is no digit. -/
theorem escape?_append_of_delimits (rest : List UInt8) (hback : Delimits back) :
    escape? (rest ++ back) = escape? rest := by
  cases back with
  | nil => rw [List.append_nil]
  | cons b back => exact escape?_append (hback b rfl) back

theorem malformed?_append {bytes : List UInt8} (h : malformed? bytes = some ())
    (hback : Delimits back) :
    ∃ rest, bytes ++ back = Byte.percent :: rest ∧ escape? rest = none := by
  cases bytes with
  | nil => cases h
  | cons b rest =>
    simp only [malformed?, ite_eq_left_iff, reduceCtorEq, imp_false, not_not, Bool.and_eq_true,
      decide_eq_true_eq, Option.isNone_iff_eq_none] at h
    refine ⟨rest ++ back, by rw [h.1]; rfl, ?_⟩
    rw [escape?_append_of_delimits rest hback, h.2]

theorem forbidden?_append {bytes : List UInt8} {b : UInt8} (h : forbidden? bytes = some b)
    (hback : Delimits back) :
    ∃ rest, (b = Byte.space ∨ Byte.isControl b = true) ∧ bytes ++ back = b :: rest ∨
      Byte.isControl b = true ∧ bytes ++ back = Byte.percent :: rest ∧ escape? rest = some b := by
  cases bytes with
  | nil => cases h
  | cons c rest =>
    refine ⟨rest ++ back, ?_⟩
    rw [forbidden?] at h
    split_ifs at h with hpercent hplain
    · obtain ⟨hescape, hcontrol⟩ := Option.filter_eq_some_iff.1 h
      rw [escape?_append_of_delimits rest hback]
      exact .inr ⟨hcontrol, by rw [hpercent]; rfl, hescape⟩
    · cases h
      exact .inl ⟨by simpa using hplain, rfl⟩

theorem question?_append {bytes : List UInt8} (h : question? bytes = some ())
    (back : List UInt8) :
    ∃ rest, bytes ++ back = Byte.questionMark :: rest := by
  cases bytes with
  | nil => cases h
  | cons b rest =>
    simp only [question?, ite_eq_left_iff, reduceCtorEq, imp_false, not_not] at h
    exact ⟨rest ++ back, by rw [h]; rfl⟩

end Percent

theorem RawSegment.decode_eq_error {read : Bool} {offset position : Nat} {content : List UInt8}
    {e : Error} (h : (classify content position).decode read offset = .error e) :
    Percent.decode read (offset + position) content = .error e := by
  rw [classify] at h
  split_ifs at h
  · cases h
  · cases h
  · exact Result.map_eq_error.1 h

namespace Query
variable {config : Config} {input segment : List UInt8} {offset : Nat} {e : Error}

/-! ### Segments in the input -/

theorem exists_of_mem_located {parts : List (List UInt8)} {p : Nat × List UInt8}
    (h : p ∈ located offset parts) :
    ∃ front back, parts = front ++ p.2 :: back ∧
      p.1 = offset + (front.flatMap (· ++ [Byte.ampersand])).length := by
  induction parts generalizing offset with
  | nil => cases h
  | cons segment parts ih =>
    have later (h : p ∈ located (offset + segment.length + 1) parts) :
        ∃ front back, segment :: parts = front ++ p.2 :: back ∧
          p.1 = offset + (front.flatMap (· ++ [Byte.ampersand])).length := by
      obtain ⟨front, back, rfl, hp⟩ := ih h
      refine ⟨segment :: front, back, rfl, ?_⟩
      rw [hp, List.flatMap_cons]
      simp only [List.length_append, List.length_singleton]
      omega
    rw [located] at h
    split at h
    · exact later h
    · rcases List.mem_cons.1 h with rfl | h
      · exact ⟨[], parts, rfl, rfl⟩
      · exact later h

theorem intercalate_append (front back : List (List UInt8)) (segment : List UInt8) :
    ∃ rest, List.intercalate [Byte.ampersand] (front ++ segment :: back) =
        front.flatMap (· ++ [Byte.ampersand]) ++ (segment ++ rest) ∧
      (rest = [] ∨ rest.head? = some Byte.ampersand) := by
  induction front with
  | nil =>
    cases back with
    | nil => exact ⟨[], by simp, .inl rfl⟩
    | cons second back =>
      refine ⟨Byte.ampersand :: List.intercalate [Byte.ampersand] (second :: back), ?_, .inr rfl⟩
      rw [List.nil_append, List.intercalate_cons_cons, List.append_assoc]
      rfl
  | cons first front ih =>
    obtain ⟨rest, hrest, hhead⟩ := ih
    refine ⟨rest, ?_, hhead⟩
    obtain ⟨second, others, hcons⟩ := List.exists_cons_of_ne_nil
      (List.append_ne_nil_of_right_ne_nil front (List.cons_ne_nil segment back))
    rw [List.cons_append, hcons, List.intercalate_cons_cons, ← hcons, hrest]
    simp

theorem segmentAt_of_mem {p : Nat × List UInt8} (h : p ∈ locatedIn input) :
    SegmentAt input p.1 p.2 := by
  obtain ⟨front, back, hparts, hstart⟩ := exists_of_mem_located h
  obtain ⟨rest, hcut, hrest⟩ := intercalate_append front back p.2
  rw [← hparts, segments_eq_splitOn, List.intercalate_splitOn] at hcut
  refine ⟨_, rest, hcut, hstart, ?_, hrest, ?_⟩
  · rcases List.eq_nil_or_concat front with rfl | ⟨before, last, rfl⟩
    · exact .inl rfl
    · exact .inr (by simp)
  · intro hmem
    have hp : p.2 ∈ segments (body input).1 := by simp [hparts]
    exact ne_ampersand_of_mem_segments p.2 hp _ hmem rfl

theorem exists_lead (input : List UInt8) :
    ∃ lead, input = lead ++ (body input).1 ∧ (body input).2 = lead.length := by
  cases input with
  | nil => exact ⟨[], rfl, rfl⟩
  | cons b rest =>
    rw [body]
    split
    · exact ⟨[b], rfl, rfl⟩
    · exact ⟨[], rfl, rfl⟩

theorem SegmentAt.standsAt {start : Nat} (h : SegmentAt input start segment) :
    StandsAt input start segment := by
  obtain ⟨front, back, hcut, hstart, -, hback, -⟩ := h
  obtain ⟨lead, hlead, hlen⟩ := exists_lead input
  refine ⟨back, ?_, ?_⟩
  · rw [hlead, hstart, hlen, hcut, ← List.drop_drop, List.drop_left, List.drop_left]
  · rcases hback with rfl | hback
    · exact delimits_nil
    · rw [Delimits, hback]
      rintro _ ⟨⟩
      rfl

theorem SegmentAt.one_le {start : Nat} {rest : List UInt8} (h : SegmentAt input start segment)
    (hinput : input = Byte.questionMark :: rest) : 1 ≤ start := by
  obtain ⟨front, back, -, hstart, -⟩ := h
  rw [hinput, body, if_pos rfl] at hstart
  omega

/-! ### Components in a segment -/

theorem exists_key_append (segment : List UInt8) :
    ∃ back, segment = (Pair.ofSegment segment).key ++ back ∧ Delimits back := by
  rcases Pair.ofSegment_cut segment with ⟨hkey, -⟩ | hcut
  · exact ⟨[], by rw [List.append_nil, ← hkey], delimits_nil⟩
  · exact ⟨_, hcut, delimits_cons rfl⟩

theorem delimits_groups (contents : List (List UInt8)) :
    Delimits (contents.flatMap RawKeyPath.group) := by
  cases contents with
  | nil => exact delimits_nil
  | cons => exact delimits_cons rfl

theorem Component.standsAt {start position : Nat} {bytes : List UInt8}
    (hsegment : SegmentAt input start segment) (h : Component segment position bytes) :
    StandsAt input (start + position) bytes := by
  obtain ⟨after, hsegment', hafter⟩ := exists_key_append segment
  cases h with
  | @root root contents h =>
    refine hsegment.standsAt.trans [] (contents.flatMap RawKeyPath.group ++ after) ?_
      ((delimits_groups contents).append hafter)
    rw [List.nil_append, ← List.append_assoc, ← h.eq]
    exact hsegment'
  | @content root content front back h =>
    have hposition : (root ++ front.flatMap RawKeyPath.group).length + 1 =
        (root ++ front.flatMap RawKeyPath.group ++ [Byte.openBracket]).length := by
      simp [Nat.add_assoc]
    rw [hposition]
    refine hsegment.standsAt.trans _ (Byte.closeBracket :: (back.flatMap RawKeyPath.group ++ after))
      ?_ (delimits_cons rfl)
    rw [hsegment', h.eq]
    simp [RawKeyPath.group]
  | @value _ h =>
    have hposition : (Pair.ofSegment segment).key.length + 1 =
        ((Pair.ofSegment segment).key ++ [Byte.equals]).length := by simp
    rw [hposition]
    refine hsegment.standsAt.trans _ [] ?_ delimits_nil
    rw [List.append_nil, List.append_assoc]
    exact h

/-! ### Errors of a segment -/

/-- Where an error of the segment at `offset` comes from, if it has an index: from the brackets of
the key or from a component. -/
inductive Fault (config : Config) (offset : Nat) (segment : List UInt8) : Error → Prop
  | unplaced {e : Error} (h : e.index? = none) : Fault config offset segment e
  | bracket {position : Nat} (h : RawKeyPath.Stray (Pair.ofSegment segment).key position) :
      Fault config offset segment
        (.unmatchedBracket (Utf8.lossy (Pair.ofSegment segment).key) (offset + position))
  | component {position : Nat} {bytes : List UInt8} {e : Error}
      (h : Component segment position bytes)
      (hdecode : Percent.decode config.spaceAsPlus (offset + position) bytes = .error e) :
      Fault config offset segment e

theorem index?_of_checkDepth {key : List UInt8} {depth : Nat}
    (h : config.checkDepth key depth = .error e) : e.index? = none := by
  rw [Config.checkDepth] at h
  split at h
  · cases h
    rfl
  · cases h

theorem fault_of_readKey (hkey : (Pair.ofSegment segment).key ≠ [])
    (h : (Pair.ofSegment segment).readKey config offset = .error e) :
    Fault config offset segment e := by
  rw [Pair.readKey, Result.bind_eq_error] at h
  rcases h with h | ⟨raw, hraw, h⟩
  · obtain ⟨position, htokenize, rfl⟩ := Result.mapError_eq_error.1 h
    exact .bracket (RawKeyPath.stray_of_tokenize hkey htokenize)
  · obtain ⟨-, contents, hsplits, hsegments⟩ :=
      RawKeyPath.tokenize_eq_ok_iff.1 (Result.mapError_eq_ok.1 hraw)
    rcases Result.bind_eq_error.1 h with h | ⟨_, -, h⟩
    · exact .unplaced (index?_of_checkDepth h)
    · rcases Result.bind_eq_error.1 h with h | ⟨_, -, h⟩
      · exact .component (.root hsplits) h
      · rcases Result.bind_eq_error.1 h with h | ⟨_, -, h⟩
        · rw [hsegments] at h
          obtain ⟨name, hname, h⟩ := Result.exists_of_mapM_eq_error h
          obtain ⟨front, content, back, rfl, rfl⟩ := RawKeyPath.exists_of_mem_classifyAll hname
          have hdecode := RawSegment.decode_eq_error h
          rw [← List.length_append] at hdecode
          exact .component (.content hsplits) hdecode
        · cases h

theorem fault_of_decode_value
    (h : Percent.decode config.spaceAsPlus
      (offset + (segment.length - (Pair.ofSegment segment).value.length))
      (Pair.ofSegment segment).value = .error e) : Fault config offset segment e := by
  rcases Pair.ofSegment_cut segment with ⟨-, hvalue⟩ | hcut
  · rw [hvalue] at h
    cases h
  · have hposition : segment.length - (Pair.ofSegment segment).value.length =
        (Pair.ofSegment segment).key.length + 1 := by
      have hlen := congrArg List.length hcut
      rw [List.length_append, List.length_cons] at hlen
      omega
    rw [hposition] at h
    exact .component (.value hcut) h

theorem fault_of_readPair {tree : Tree} (h : readPair config offset segment tree = .error e) :
    Fault config offset segment e := by
  rw [readPair_eq, Result.bind_eq_error, readWrite] at h
  rcases h with h | ⟨w, -, h⟩
  · split at h
    · rcases Result.bind_eq_error.1 h with h | ⟨_, -, h⟩
      · exact fault_of_decode_value h
      · cases h
    · rename_i hkey
      rcases Result.bind_eq_error.1 h with h | ⟨_, -, h⟩
      · exact fault_of_readKey (by simpa using hkey) h
      · rcases Result.bind_eq_error.1 h with h | ⟨_, -, h⟩
        · exact fault_of_decode_value h
        · cases h
  · cases w with
    | none => cases h
    | some write =>
      obtain rfl := Tree.eq_duplicateKey_of_insert h
      exact .unplaced rfl

/-- What is found wrong with a segment is to be seen in the input. -/
theorem Fault.locates {start : Nat} (hsegment : SegmentAt input start segment)
    (h : Fault config start segment e) : e.Locates input := by
  cases h with
  | unplaced h => exact Error.locates_of_index?_eq_none h input
  | @bracket position h => exact ⟨start, segment, position, hsegment, h, rfl, rfl⟩
  | @component position bytes _ h hdecode =>
    have hstands := h.standsAt hsegment
    rcases Percent.decode_eq_error hdecode with ⟨rfl, hvalid⟩ | ⟨front, back, hcut, he⟩
    · exact ⟨start, segment, position, bytes, hsegment, h, rfl, hvalid⟩
    · rw [← List.append_nil back] at hcut
      obtain ⟨later, hdrop, hlater⟩ := hstands.trans front [] hcut delimits_nil
      rcases he with ⟨rfl, hback⟩ | ⟨b, rfl, hback⟩ | ⟨rfl, hback⟩
      · obtain ⟨rest, hrest, hescape⟩ := Percent.malformed?_append hback hlater
        exact ⟨rest, hdrop.trans hrest, hescape⟩
      · obtain ⟨rest, hrest⟩ := Percent.forbidden?_append hback hlater
        rw [← hdrop] at hrest
        exact ⟨b, rest, rfl, hrest⟩
      · obtain ⟨rest, hrest⟩ := Percent.question?_append hback later
        rw [← hdrop] at hrest
        refine ⟨Nat.one_le_iff_ne_zero.2 fun hzero => ?_, rest, hrest⟩
        -- a `?` that leads the input is in front of all segments
        rw [hzero, List.drop_zero] at hrest
        have := hsegment.one_le hrest
        omega

/-! ### Errors of a query -/

theorem exists_fault_of_parse (h : parse config input = .error e) :
    e.index? = none ∨ ∃ start segment, SegmentAt input start segment ∧
      Fault config start segment e := by
  rw [parse, Result.bind_eq_error] at h
  rcases h with h | ⟨_, -, h⟩
  · rw [Config.checkLength] at h
    split at h <;> cases h
    exact .inl rfl
  · rcases Result.bind_eq_error.1 h with h | ⟨_, -, h⟩
    · rw [Config.checkParams] at h
      split at h <;> cases h
      exact .inl rfl
    · rcases Result.bind_eq_error.1 h with h | ⟨_, -, h⟩
      · rw [readAll_eq] at h
        obtain ⟨p, hp, tree, hpair⟩ := Result.exists_of_foldlM_eq_error h
        exact .inr ⟨p.1, p.2, segmentAt_of_mem hp, fault_of_readPair hpair⟩
      · cases h

theorem lt_length_of_locates (h : e.Locates input) : ∀ i ∈ e.index?, i < input.length := by
  have lt_length {i : Nat} {b : UInt8} {rest : List UInt8} (h : input.drop i = b :: rest) :
      i < input.length := by
    have hlen := congrArg List.length h
    rw [List.length_drop, List.length_cons] at hlen
    omega
  intro i hi
  cases e with
  | invalidPercentEncoding =>
    cases hi
    obtain ⟨rest, hdrop, -⟩ := h
    exact lt_length hdrop
  | unexpectedQuestionMark =>
    cases hi
    obtain ⟨-, rest, hdrop⟩ := h
    exact lt_length hdrop
  | invalidCharacter =>
    cases hi
    obtain ⟨b, rest, -, ⟨-, hdrop⟩ | ⟨-, hdrop, -⟩⟩ := h
    · exact lt_length hdrop
    · exact lt_length hdrop
  | invalidUtf8 =>
    cases hi
    obtain ⟨start, segment, position, bytes, hsegment, hcomponent, rfl, hvalid⟩ := h
    have hne : 0 < bytes.length := by
      refine List.length_pos_iff.2 ?_
      rintro rfl
      exact hvalid (Utf8.valid_of_ascii (by simp [Percent.unescape]))
    exact (hcomponent.standsAt hsegment).lt_length hne
  | unmatchedBracket =>
    cases hi
    obtain ⟨start, segment, position, hsegment, hstray, rfl, -⟩ := h
    have hkey : (Pair.ofSegment segment).key.length ≤ segment.length :=
      (List.takeWhile_prefix _).length_le
    exact hsegment.standsAt.lt_length (hstray.lt_length.trans_le hkey)
  | _ => cases hi

/-- Every error of a query that has an index points into it, at bytes that show what the error
says. -/
theorem parse_error_located (config : Config) (input : List UInt8) {e : Error}
    (h : parse config input = .error e) :
    (∀ i ∈ e.index?, i < input.length) ∧ e.Locates input := by
  have hlocates : e.Locates input := by
    rcases exists_fault_of_parse h with hnone | ⟨start, segment, hsegment, hfault⟩
    · exact Error.locates_of_index?_eq_none hnone input
    · exact hfault.locates hsegment
  exact ⟨lt_length_of_locates hlocates, hlocates⟩

/-- An escaped line break is found behind a `?`, an empty segment and other bytes of its group. -/
theorem line_break_located :
    let e : Error := .invalidCharacter (Char.ofNat 0x0A) 9
    parse {} (Utf8.encode "?a=1&&b[c%0A]=2") = .error e ∧
      (∀ i ∈ e.index?, i < (Utf8.encode "?a=1&&b[c%0A]=2").length) ∧
        e.Locates (Utf8.encode "?a=1&&b[c%0A]=2") := by
  intro e
  have hparse : parse {} (Utf8.encode "?a=1&&b[c%0A]=2") = .error e := by cbv
  exact ⟨hparse, parse_error_located {} _ hparse⟩

end Query

end NestedQuery
