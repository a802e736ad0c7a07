import NestedQuery.KeyPath.Raw
import NestedQuery.Proofs.Ascii
import NestedQuery.Proofs.Grammar
import NestedQuery.Proofs.Listing
import NestedQuery.Proofs.Percent

/-!
# Canonical keys read back

`tokenize_key`: the canonical spelling of a key path splits into as many groups as the path has
segments, and these decode to the path, if every segment is `Spellable`: a name that is not empty
and holds no control character, or a position that an index can name. A name of digits is spelled
with an escape, so that it is not taken for an index (`classify_nameContent`).
-/

namespace NestedQuery

/-- Segments that read back from their canonical spelling. -/
def Segment.Spellable : Segment → Prop
  | .name text => text ≠ "" ∧ hasControl text = false
  | .index position => position < indexBound
  | .append => True

namespace Canonical
variable {write read : Bool} {text : String}

theorem isLiteral_of_isPlain (b : UInt8) : isPlain b = true → Percent.isLiteral b = true :=
  Byte.forall_of_fin (P := fun b => isPlain b = true → Percent.isLiteral b = true)
    (by decide +kernel) b

/-- Names that need no look at the encoder are spelled like all others. -/
theorem encodeName_eq (write : Bool) (name : String) :
    encodeName write name = Percent.encode write name := by
  unfold encodeName
  dsimp only
  split
  · rename_i h
    exact (Percent.flatMap_encodeByte fun b hb =>
      isLiteral_of_isPlain b (List.all_eq_true.1 h b hb)).symm
  · rfl

/-- What stands between the brackets of a name. -/
def nameContent (spaceAsPlus : Bool) (name : String) : List UInt8 :=
  let bytes := Utf8.encode name
  if !bytes.isEmpty && bytes.all Byte.isDigit then Byte.percent :: 0x33 :: bytes
  else Percent.encode spaceAsPlus name

theorem bracketName_eq (write : Bool) (name : String) :
    bracketName write name = Byte.openBracket :: nameContent write name ++ [Byte.closeBracket] := by
  unfold bracketName nameContent
  simp only [encodeName_eq]

theorem isCanonical_of_isDigit {b : UInt8} (h : Byte.isDigit b = true) :
    Percent.isCanonical b = true := by
  rw [Percent.isCanonical, Percent.isLiteral_of_isDigit b h]
  rfl

theorem isCanonical_of_mem_nameContent {b : UInt8} (h : b ∈ nameContent write text) :
    Percent.isCanonical b = true := by
  unfold nameContent at h
  dsimp only at h
  split at h
  · rename_i hd
    rw [Bool.and_eq_true] at hd
    rcases List.mem_cons.1 h with rfl | h
    · decide
    · rcases List.mem_cons.1 h with rfl | h
      · decide
      · exact isCanonical_of_isDigit (List.all_eq_true.1 hd.2 b h)
  · exact Percent.isCanonical_of_mem_encode h

theorem decode_nameContent (hwr : write = true → read = true) (h : hasControl text = false)
    (offset : Nat) : Percent.decode read offset (nameContent write text) = .ok text := by
  unfold nameContent
  dsimp only
  split
  · rename_i hd
    rw [Bool.and_eq_true] at hd
    exact Percent.decode_escaped_digit offset (by simpa using hd.1) hd.2
  · exact Percent.decode_encode hwr h offset

theorem exists_mem_encodeByte (write : Bool) {b : UInt8} (h : Byte.isDigit b = false) :
    ∃ c ∈ Percent.encodeByte write b, Byte.isDigit c = false := by
  unfold Percent.encodeByte
  split
  · exact ⟨b, by simp, h⟩
  · split
    · exact ⟨Byte.plus, by simp, by decide⟩
    · exact ⟨Byte.percent, by simp, by decide⟩

theorem encodeByte_ne_nil (b : UInt8) : Percent.encodeByte write b ≠ [] := by
  unfold Percent.encodeByte
  split_ifs <;> simp

theorem encode_ne_nil (h : text ≠ "") : Percent.encode write text ≠ [] := by
  obtain ⟨b, bs, hb⟩ := List.exists_cons_of_ne_nil (mt Utf8.encode_eq_nil h)
  rw [Percent.encode, hb, List.flatMap_cons]
  simp [encodeByte_ne_nil]

theorem exists_mem_nameContent (write : Bool) (h : text ≠ "") :
    ∃ c ∈ nameContent write text, Byte.isDigit c = false := by
  unfold nameContent
  dsimp only
  split
  · exact ⟨Byte.percent, by simp, by decide⟩
  · rename_i hd
    have hne : Utf8.encode text ≠ [] := mt Utf8.encode_eq_nil h
    have hd : ∃ b ∈ Utf8.encode text, Byte.isDigit b = false := by simpa [hne] using hd
    obtain ⟨b, hb, hd⟩ := hd
    obtain ⟨c, hc, hd⟩ := exists_mem_encodeByte write hd
    exact ⟨c, List.mem_flatMap.2 ⟨b, hb, hc⟩, hd⟩

/-- A name is never taken for an index. -/
theorem classify_nameContent (h : text ≠ "") (position : Nat) :
    RawSegment.classify (nameContent write text) position =
      .name (nameContent write text) position := by
  obtain ⟨c, hc, hd⟩ := exists_mem_nameContent write h
  have hne : nameContent write text ≠ [] := List.ne_nil_of_mem hc
  have hall : (nameContent write text).all Byte.isDigit = false :=
    List.all_eq_false.2 ⟨c, hc, by simp [hd]⟩
  rw [RawSegment.classify, if_neg (by simpa using hne), hall]
  rfl

theorem classify_index {n : Nat} (h : n < indexBound) (position : Nat) :
    RawSegment.classify (Utf8.encode (toString n)) position = .index n := by
  have hne := Byte.encode_toString_ne_nil n
  rw [RawSegment.classify, if_neg (by simpa using hne), Byte.all_isDigit_decimal,
    Byte.decimal_encode, if_pos (by simpa using h)]

def content (spaceAsPlus : Bool) : Segment → List UInt8
  | .name text => nameContent spaceAsPlus text
  | .index position => Utf8.encode (toString position)
  | .append => []

theorem segment_eq (write : Bool) (s : Segment) :
    segment write s = Byte.openBracket :: content write s ++ [Byte.closeBracket] := by
  cases s with
  | name text => exact bracketName_eq write text
  | index => rfl
  | append => rfl

theorem isCanonical_of_mem_content {s : Segment} {b : UInt8} (h : b ∈ content write s) :
    Percent.isCanonical b = true := by
  cases s with
  | name text => exact isCanonical_of_mem_nameContent h
  | index n => exact isCanonical_of_isDigit (List.all_eq_true.1 (Byte.all_isDigit_decimal n) b h)
  | append => cases h

theorem decode_classify_content (hwr : write = true → read = true) {s : Segment}
    (h : s.Spellable) (offset position : Nat) :
    (RawSegment.classify (content write s) position).decode read offset = .ok s := by
  cases s with
  | name text =>
    rw [content, classify_nameContent h.1, RawSegment.decode, decode_nameContent hwr h.2]
    rfl
  | index n => rw [content, classify_index h]; rfl
  | append => rfl

/-- The groups of a canonical key decode to the segments of its path. -/
theorem decode_classifyAll_content (hwr : write = true → read = true) {path : List Segment}
    (h : ∀ s ∈ path, s.Spellable) (offset position : Nat) :
    (RawKeyPath.classifyAll position (path.map (content write))).mapM
      (RawSegment.decode read offset) = .ok path := by
  induction path generalizing position with
  | nil => rfl
  | cons s path ih =>
    obtain ⟨hs, hpath⟩ := List.forall_mem_cons.1 h
    rw [List.map_cons, RawKeyPath.classifyAll, List.mapM_cons, decode_classify_content hwr hs,
      ih hpath]
    rfl

theorem flatMap_segment (write : Bool) (path : List Segment) :
    path.flatMap (segment write) = (path.map (content write)).flatMap RawKeyPath.group := by
  rw [List.flatMap_map]
  congr 1
  funext s
  exact segment_eq write s

theorem splits_key (write : Bool) (path : KeyPath) :
    RawKeyPath.Splits (key write path) (Percent.encode write path.root)
      (path.segments.map (content write)) := by
  refine ⟨?_, by rw [key, encodeName_eq, flatMap_segment]⟩
  rw [List.forall_mem_cons, List.forall_mem_map]
  exact ⟨fun b hb => Percent.isBracket_of_isCanonical b (Percent.isCanonical_of_mem_encode hb),
    fun s _ b hb => Percent.isBracket_of_isCanonical b (isCanonical_of_mem_content hb)⟩

/-- A canonical key splits into the segments of its path and decodes to it. -/
theorem tokenize_key (hwr : write = true → read = true) {path : KeyPath}
    (h : ∀ s ∈ path.steps, s.Spellable) :
    ∃ raw, RawKeyPath.tokenize (key write path) = .ok raw ∧
      raw.segments.length = path.segments.length ∧
      ∀ offset, raw.decode read offset = .ok path := by
  obtain ⟨hroot, hcontrol⟩ : path.root ≠ "" ∧ hasControl path.root = false :=
    h (.name path.root) (by simp [KeyPath.steps])
  let root := Percent.encode write path.root
  let contents := path.segments.map (content write)
  refine ⟨⟨root, RawKeyPath.classifyAll root.length contents⟩, ?_, ?_, fun offset => ?_⟩
  · exact RawKeyPath.tokenize_eq_ok_iff.2
      ⟨encode_ne_nil hroot, contents, splits_key write path, rfl⟩
  · rw [RawKeyPath.length_classifyAll, List.length_map]
  · have hsegments : ∀ s ∈ path.segments, s.Spellable := fun s hs =>
      h s (List.mem_cons_of_mem _ hs)
    rw [RawKeyPath.decode, Percent.decode_encode hwr hcontrol,
      decode_classifyAll_content hwr hsegments]
    rfl

end Canonical

end NestedQuery
