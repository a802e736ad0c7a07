import Mathlib
import NestedQuery.Proofs.CanonicalQuery

/-!
# The canonical query by recursion

`Spelling.query` says what the canonical query is: the pairs of the texts below each value, by
recursion on it, joined by `&`. The writer with its stack of levels and its one key buffer writes
just that (`stringify_eq_query`). The two meet in the list of leaves: `pairs_eq` on the one side,
`toList_bytes` on the other, and `asciiText` between bytes and text.
-/

namespace NestedQuery

namespace Spelling

/-! ### The query -/

/-- The characters that are spelled as they are. -/
def literals : List Char :=
  "ABCDEFGHIJKLMNOPQRSTUVWXYZabcdefghijklmnopqrstuvwxyz0123456789-._~!$'()*".toList

/-- Half a byte as an uppercase hex digit. -/
def hexDigit (n : Nat) : Char :=
  (Nat.digitChar n).toUpper

def byte (spaceAsPlus : Bool) (b : UInt8) : String :=
  let c := Char.ofNat b.toNat
  if c ∈ literals then String.singleton c
  else if c = ' ' then if spaceAsPlus then "+" else "%20"
  else String.ofList ['%', hexDigit (b.toNat / 16), hexDigit (b.toNat % 16)]

/-- A root or a text. -/
def component (spaceAsPlus : Bool) (text : String) : String :=
  String.join ((Utf8.encode text).map (byte spaceAsPlus))

/-- A name in brackets. One of digits alone would be an index, so its first digit is escaped. -/
def name (spaceAsPlus : Bool) (text : String) : String :=
  if text ≠ "" ∧ text.toList.all Char.isDigit then "%3" ++ text else component spaceAsPlus text

mutual

/-- The pairs of the texts of a value whose key is `key`, in document order. -/
def pairs (spaceAsPlus : Bool) (key : String) : Value → List String
  | .scalar text => [key ++ "=" ++ component spaceAsPlus text]
  | .list items => pairsItems spaceAsPlus key 0 items
  | .map entries => pairsEntries spaceAsPlus key entries

/-- The pairs of list items, the first of which stands at `position`. -/
def pairsItems (spaceAsPlus : Bool) (key : String) (position : Nat) : List Value → List String
  | [] => []
  | item :: items =>
    pairs spaceAsPlus (key ++ "[" ++ toString position ++ "]") item ++
      pairsItems spaceAsPlus key (position + 1) items

def pairsEntries (spaceAsPlus : Bool) (key : String) : List (String × Value) → List String
  | [] => []
  | (text, value) :: entries =>
    pairs spaceAsPlus (key ++ "[" ++ name spaceAsPlus text ++ "]") value ++
      pairsEntries spaceAsPlus key entries

end

def query (spaceAsPlus : Bool) (doc : Document) : String :=
  "&".intercalate <| doc.entries.flatMap fun entry =>
    pairs spaceAsPlus (component spaceAsPlus entry.1) entry.2

/-! ### Pairs as leaves -/

/-- A bracket group. -/
def group (spaceAsPlus : Bool) : Segment → String
  | .name text => "[" ++ name spaceAsPlus text ++ "]"
  | .index position => "[" ++ toString position ++ "]"
  | .append => "[]"

/-- The pair of a text at the end of a path below `key`. -/
def pairBelow (spaceAsPlus : Bool) (key : String) (leaf : List Segment × String) : String :=
  key ++ String.join (leaf.1.map (group spaceAsPlus)) ++ "=" ++ component spaceAsPlus leaf.2

variable {spaceAsPlus : Bool}

theorem pairBelow_under (key : String) (s : Segment) (leaf : List Segment × String) :
    pairBelow spaceAsPlus key (under s leaf) =
      pairBelow spaceAsPlus (key ++ group spaceAsPlus s) leaf := by
  simp only [pairBelow, under, List.map_cons, String.join_cons, String.append_assoc]

mutual

theorem pairs_eq : ∀ (key : String) (v : Value),
    pairs spaceAsPlus key v = v.leaves.map (pairBelow spaceAsPlus key)
  | key, .scalar text => by
    rw [pairs, Value.leaves, List.map_singleton, pairBelow, List.map_nil]
    simp
  | key, .list items => by rw [pairs, Value.leaves, pairsItems_eq]
  | key, .map entries => by rw [pairs, Value.leaves, pairsEntries_eq]

theorem pairsItems_eq : ∀ (key : String) (position : Nat) (items : List Value),
    pairsItems spaceAsPlus key position items =
      (Value.leavesItems position items).map (pairBelow spaceAsPlus key)
  | _, _, [] => rfl
  | key, position, item :: items => by
    rw [pairsItems, Value.leavesItems, List.map_append, List.map_map, pairs_eq,
      pairsItems_eq key (position + 1) items]
    congr 1
    refine List.map_congr_left fun leaf _ => ?_
    rw [Function.comp_apply, pairBelow_under, group]
    simp only [String.append_assoc]

theorem pairsEntries_eq : ∀ (key : String) (entries : List (String × Value)),
    pairsEntries spaceAsPlus key entries =
      (Value.leavesEntries entries).map (pairBelow spaceAsPlus key)
  | _, [] => rfl
  | key, (text, value) :: entries => by
    rw [pairsEntries, Value.leavesEntries, List.map_append, List.map_map, pairs_eq,
      pairsEntries_eq key entries]
    congr 1
    refine List.map_congr_left fun leaf _ => ?_
    rw [Function.comp_apply, pairBelow_under, group]
    simp only [String.append_assoc]

end

/-- The pair of a text and its key path. -/
def pair (spaceAsPlus : Bool) (leaf : KeyPath × String) : String :=
  pairBelow spaceAsPlus (component spaceAsPlus leaf.1.root) (leaf.1.segments, leaf.2)

theorem query_eq (doc : Document) :
    query spaceAsPlus doc = "&".intercalate (doc.leaves.map (pair spaceAsPlus)) := by
  have hpairs : (doc.entries.flatMap fun entry =>
      pairs spaceAsPlus (component spaceAsPlus entry.1) entry.2) =
        doc.leaves.map (pair spaceAsPlus) := by
    rw [Document.leaves, List.map_flatMap]
    refine List.flatMap_congr fun entry _ => ?_
    rw [pairs_eq, List.map_map]
    rfl
  rw [query, hpairs]

/-! ### Bytes and text -/

/-- The text of bytes that are all ASCII. -/
def ofBytes (bytes : List UInt8) : String :=
  String.ofList (bytes.map fun b => Char.ofNat b.toNat)

theorem ofBytes_append (front back : List UInt8) :
    ofBytes (front ++ back) = ofBytes front ++ ofBytes back := by
  rw [ofBytes, List.map_append, String.ofList_append]
  rfl

theorem ofBytes_cons (b : UInt8) (bytes : List UInt8) :
    ofBytes (b :: bytes) = String.singleton (Char.ofNat b.toNat) ++ ofBytes bytes :=
  ofBytes_append [b] bytes

theorem ofBytes_flatMap {α : Type} (f : α → List UInt8) (l : List α) :
    ofBytes (l.flatMap f) = String.join (l.map fun a => ofBytes (f a)) := by
  induction l with
  | nil => rfl
  | cons a l ih => rw [List.flatMap_cons, ofBytes_append, ih, List.map_cons, String.join_cons]

theorem mem_literals_iff (b : UInt8) :
    Char.ofNat b.toNat ∈ literals ↔ Percent.isLiteral b = true := by
  have htable : b.toNat ∈ literals.map Char.toNat ↔ Percent.isLiteral b = true :=
    Byte.forall_of_fin
      (P := fun b => b.toNat ∈ literals.map Char.toNat ↔ Percent.isLiteral b = true)
      (by decide +kernel) b
  have hmem : (Char.ofNat b.toNat).toNat ∈ literals.map Char.toNat ↔
      Char.ofNat b.toNat ∈ literals :=
    List.mem_map_of_injective fun _ _ => Char.toNat_inj.1
  rw [← hmem, Byte.toNat_char, htable]

theorem char_hexDigit (b : UInt8) :
    Char.ofNat (Byte.hexDigit (b / 0x10)).toNat = hexDigit (b.toNat / 16) ∧
      Char.ofNat (Byte.hexDigit (b % 0x10)).toNat = hexDigit (b.toNat % 16) :=
  Byte.forall_of_fin (P := fun b =>
    Char.ofNat (Byte.hexDigit (b / 0x10)).toNat = hexDigit (b.toNat / 16) ∧
      Char.ofNat (Byte.hexDigit (b % 0x10)).toNat = hexDigit (b.toNat % 16))
    (by decide +kernel) b

theorem ofBytes_encodeByte (spaceAsPlus : Bool) (b : UInt8) :
    ofBytes (Percent.encodeByte spaceAsPlus b) = byte spaceAsPlus b := by
  have hspace : Char.ofNat b.toNat = ' ' ↔ b = Byte.space := @Byte.char_inj b Byte.space
  by_cases hliteral : Percent.isLiteral b = true
  · rw [Percent.encodeByte, byte, if_pos hliteral, if_pos ((mem_literals_iff b).2 hliteral)]
    rfl
  · rw [Percent.encodeByte, byte, if_neg hliteral, if_neg (mt (mem_literals_iff b).1 hliteral)]
    by_cases hb : b = Byte.space
    · rw [if_pos (hspace.2 hb), hb]
      cases spaceAsPlus <;> rfl
    · rw [if_neg (mt hspace.1 hb), if_neg (by simp [hb]), ← (char_hexDigit b).1,
        ← (char_hexDigit b).2]
      rfl

theorem ofBytes_encode (text : String) :
    ofBytes (Percent.encode spaceAsPlus text) = component spaceAsPlus text := by
  rw [Percent.encode, ofBytes_flatMap, component]
  exact congrArg _ (List.map_congr_left fun b _ => ofBytes_encodeByte spaceAsPlus b)

theorem ofBytes_utf8 {text : String} (h : ∀ b ∈ Utf8.encode text, b < 0x80) :
    ofBytes (Utf8.encode text) = text := by
  have hencode : Utf8.encode (ofBytes (Utf8.encode text)) = Utf8.encode text :=
    @Canonical.encode_asciiText ⟨(Utf8.encode text).toArray⟩ h
  have hdecode := congrArg Utf8.decode? hencode
  rw [Utf8.decode?_encode, Utf8.decode?_encode] at hdecode
  exact Option.some.inj hdecode

theorem ofBytes_nameContent (text : String) :
    ofBytes (Canonical.nameContent spaceAsPlus text) = name spaceAsPlus text := by
  unfold Canonical.nameContent name
  have hempty : (Utf8.encode text).isEmpty = false ↔ text ≠ "" := by
    rw [List.isEmpty_eq_false_iff]
    exact not_congr ⟨Utf8.encode_eq_nil, fun h => h ▸ rfl⟩
  dsimp only
  rw [Byte.all_isDigit_encode]
  split
  · rename_i h
    rw [Bool.and_eq_true, Bool.not_eq_true', hempty] at h
    rw [if_pos h]
    have hascii : ∀ b ∈ Utf8.encode text, b < 0x80 := fun b hb =>
      Byte.lt_of_isDigit (List.all_eq_true.1 ((Byte.all_isDigit_encode text).trans h.2) b hb)
    rw [ofBytes_cons, ofBytes_cons, ofBytes_utf8 hascii, ← String.append_assoc]
    rfl
  · rename_i h
    rw [Bool.and_eq_true, Bool.not_eq_true', hempty] at h
    rw [if_neg h, ofBytes_encode]

theorem ofBytes_segment (s : Segment) :
    ofBytes (Canonical.segment spaceAsPlus s) = group spaceAsPlus s := by
  have hbrackets (content : List UInt8) :
      ofBytes (Byte.openBracket :: content ++ [Byte.closeBracket]) =
        "[" ++ ofBytes content ++ "]" := by
    rw [ofBytes_append, ofBytes_cons]
    rfl
  cases s with
  | name text =>
    rw [Canonical.segment, Canonical.bracketName_eq, hbrackets, ofBytes_nameContent, group]
  | index n =>
    have hascii : ∀ b ∈ Utf8.encode (toString n), b < 0x80 := fun b hb =>
      Byte.lt_of_isDigit (List.all_eq_true.1 (Byte.all_isDigit_decimal n) b hb)
    rw [Canonical.segment, Canonical.bracketIndex, hbrackets, ofBytes_utf8 hascii, group]
  | append => rfl

theorem ofBytes_pair (leaf : KeyPath × String) :
    ofBytes (Canonical.pair spaceAsPlus leaf) = pair spaceAsPlus leaf := by
  have hgroups : ofBytes (leaf.1.segments.flatMap (Canonical.segment spaceAsPlus)) =
      String.join (leaf.1.segments.map (group spaceAsPlus)) := by
    rw [ofBytes_flatMap]
    exact congrArg _ (List.map_congr_left fun s _ => ofBytes_segment s)
  rw [Canonical.pair, Canonical.key, ofBytes_append, ofBytes_append, Canonical.encodeName_eq,
    ofBytes_encode, hgroups, ← List.singleton_append, ofBytes_append, ofBytes_encode, pair,
    pairBelow]
  simp only [String.append_assoc]
  rfl

theorem ofBytes_intercalate (parts : List (List UInt8)) :
    ofBytes (List.intercalate [Byte.ampersand] parts) = "&".intercalate (parts.map ofBytes) := by
  induction parts with
  | nil => rfl
  | cons first others ih =>
    cases others with
    | nil => rw [List.intercalate_singleton]; rfl
    | cons second others =>
      have hjoin : "&".intercalate ((first :: second :: others).map ofBytes) =
          ofBytes first ++ "&" ++ "&".intercalate ((second :: others).map ofBytes) :=
        String.intercalate_cons_cons
      rw [List.intercalate_cons_cons, ofBytes_append, ofBytes_append, ih, hjoin]
      rfl

end Spelling

/-! ### The pairs of the query -/

namespace Canonical

/-- The key of a pair ends at its only `=`. -/
theorem count_equals_pair (write : Bool) (leaf : KeyPath × String) :
    (pair write leaf).count Byte.equals = 1 := by
  have hkey : (key write leaf.1).count Byte.equals = 0 :=
    List.count_eq_zero.2 fun hmem => (uncut_of_mem_key hmem).ne_equals rfl
  have htext : (Percent.encode write leaf.2).count Byte.equals = 0 :=
    List.count_eq_zero.2 fun hmem =>
      (Percent.uncut_of_isCanonical (Percent.isCanonical_of_mem_encode hmem)).ne_equals rfl
  rw [pair, List.count_append, List.count_cons_self, hkey, htext]

end Canonical

/-- The canonical query of a document is what its recursive definition says. It is a pair for each
text of the document, none of them empty and each with one `=`; it starts with no `?` and is all
ASCII. -/
theorem Document.stringify_eq_query (config : Config) (doc : Document) :
    doc.stringify config = Spelling.query config.spaceAsPlus doc ∧
      (doc.leaves = [] ∧ doc.stringify config = "" ∨
        (Query.segments (Utf8.encode (doc.stringify config))).length = doc.leaves.length ∧
          ∀ segment ∈ Query.segments (Utf8.encode (doc.stringify config)),
            segment ≠ [] ∧ segment.count Byte.equals = 1) ∧
      (Utf8.encode (doc.stringify config)).head? ≠ some Byte.questionMark ∧
      ∀ b ∈ Utf8.encode (doc.stringify config), b < 0x80 := by
  have hquery : doc.stringify config = Spelling.query config.spaceAsPlus doc := by
    show Spelling.ofBytes (Canonical.bytes config doc).data.toList = _
    rw [Canonical.toList_bytes, Spelling.ofBytes_intercalate, List.map_map, Spelling.query_eq]
    exact congrArg _ (List.map_congr_left fun leaf _ => Spelling.ofBytes_pair leaf)
  have hpairs : doc.leaves = [] ∧ doc.stringify config = "" ∨
      (Query.segments (Utf8.encode (doc.stringify config))).length = doc.leaves.length ∧
        ∀ segment ∈ Query.segments (Utf8.encode (doc.stringify config)),
          segment ≠ [] ∧ segment.count Byte.equals = 1 := by
    by_cases hleaves : doc.leaves = []
    · left
      rw [hquery, Spelling.query_eq, hleaves]
      exact ⟨rfl, rfl⟩
    · right
      rw [Canonical.encode_stringify, Canonical.segments_bytes hleaves]
      refine ⟨List.length_map _, List.forall_mem_map.2 fun leaf _ => ⟨?_, ?_⟩⟩
      · simp [Canonical.pair]
      · exact Canonical.count_equals_pair _ leaf
  refine ⟨hquery, hpairs, fun hhead => ?_, fun b hb => ?_⟩
  · rw [Canonical.encode_stringify] at hhead
    exact (Canonical.ne_of_mem_bytes (List.mem_of_mem_head? hhead)).2 rfl
  · rw [Canonical.encode_stringify] at hb
    exact (Canonical.ne_of_mem_bytes hb).1

/-- An empty root, a name of digits, an empty list between two items and a text that is empty. -/
theorem Document.stringify_of_digits :
    let doc : Document := ⟨[("", .map [("10", .list [.scalar " +é", .list [], .scalar "\x00"])]),
      ("a b", .scalar "")]⟩
    doc.stringify {} = "[%310][0]=%20%2B%C3%A9&[%310][2]=%00&a%20b=" ∧
      (Query.segments (Utf8.encode (doc.stringify {}))).length = 3 ∧
      Utf8.encode "[%310][2]=%00" ∈ Query.segments (Utf8.encode (doc.stringify {})) ∧
      (Utf8.encode "[%310][2]=%00").count Byte.equals = 1 := by
  intro doc
  obtain ⟨hquery, hpairs, -, -⟩ := doc.stringify_eq_query {}
  have hspelled : Spelling.query false doc =
      "[%310][0]=%20%2B%C3%A9&[%310][2]=%00&a%20b=" := by cbv
  rcases hpairs with ⟨hnone, -⟩ | ⟨hlength, hsegments⟩
  · cases hnone
  · have hmem : Utf8.encode "[%310][2]=%00" ∈ Query.segments (Utf8.encode (doc.stringify {})) := by
      rw [hquery, hspelled]
      decide +kernel
    exact ⟨hquery.trans hspelled, hlength, hmem, (hsegments _ hmem).2⟩

end NestedQuery
