import NestedQuery.Proofs.CanonicalKey
import NestedQuery.Proofs.Decoding
import NestedQuery.Proofs.Viable

/-!
# Key paths shown as they are

A key path is shown with its names as they are, without any escape (`KeyPath.render`). What is shown
reads back as the path just if every name in it is plain: `parse_render_iff`. A name that is cut off
at a bracket of its own or that spells an escape comes back shorter than it is
(`length_le_of_decode`). So what comes back as the same name was cut out of the key as a whole
(`eq_of_cut`) and stands for itself (`decode_self_iff`).
-/

namespace NestedQuery

/-! ### Components that stand for themselves -/

namespace Percent
variable {read : Bool} {offset : Nat} {bytes : List UInt8} {text : String}

theorem unescape_of_escape? {rest : List UInt8} {c : UInt8} (h : c ∈ escape? rest) :
    ∃ x y later, rest = x :: y :: later ∧
      unescape (Byte.percent :: rest) = c :: unescape later := by
  match rest, h with
  | x :: y :: later, h =>
    rw [escape?] at h
    split at h
    · rename_i hh hl
      cases h
      exact ⟨x, y, later, rfl, unescape_escape hh hl later⟩
    · cases h

theorem length_unescape_le (bytes : List UInt8) : (unescape bytes).length ≤ bytes.length := by
  fun_induction unescape bytes with
  | case1 => exact Nat.le_refl _
  | case2 => simp only [List.length_cons]; omega
  | case3 | case4 | case5 => simp only [List.length_cons] at *; omega

/-- No component spells more than it takes. -/
theorem length_le_of_decode (h : decode read offset bytes = .ok text) :
    (Utf8.encode text).length ≤ bytes.length := by
  obtain ⟨-, htext⟩ := decode_eq_ok_iff.1 h
  have hlen : (spaces read bytes).length = bytes.length := by
    unfold spaces
    split
    · exact List.length_map _
    · rfl
  rw [← Utf8.decode?_eq_some_iff.1 htext, ← hlen]
  exact length_unescape_le _

theorem unescape_eq_self_iff (h : Strict bytes) :
    unescape bytes = bytes ↔ Byte.percent ∉ bytes := by
  induction bytes with
  | nil => simp [unescape]
  | cons b rest ih =>
    obtain ⟨-, hpercent, hstrict⟩ := strict_cons.1 h
    by_cases hb : b = Byte.percent
    · -- the escape spells one byte and takes three
      obtain ⟨c, hc, -⟩ := hpercent hb
      obtain ⟨x, y, later, rfl, hunescape⟩ := unescape_of_escape? hc
      rw [hb, hunescape]
      refine iff_of_false (fun heq => ?_) (by simp)
      have hlen := congrArg List.length heq
      have hle := length_unescape_le later
      simp only [List.length_cons] at hlen
      omega
    · rw [unescape_cons_of_ne hb, List.cons.injEq, ih hstrict, List.mem_cons]
      simp [Ne.symm hb]

/-- A text is its own spelling just if nothing in it has to be escaped. -/
theorem decode_self_iff :
    decode false offset (Utf8.encode text) = .ok text ↔
      ∀ b ∈ Utf8.encode text, Plain b ∧ b ≠ Byte.percent := by
  rw [decode_eq_ok_iff, Utf8.decode?_eq_some_iff]
  constructor
  · rintro ⟨hstrict, hunescape⟩ b hb
    refine ⟨hstrict.plain b hb, ?_⟩
    rintro rfl
    exact (unescape_eq_self_iff hstrict).1 hunescape hb
  · intro h
    have hpercent : Byte.percent ∉ Utf8.encode text := fun hmem => (h _ hmem).2 rfl
    have hstrict : Strict (Utf8.encode text) :=
      ⟨fun b hb => (h b hb).1, fun rest hrest =>
        absurd (hrest.subset (List.mem_cons_self ..)) hpercent⟩
    exact ⟨hstrict, (unescape_eq_self_iff hstrict).2 hpercent⟩

end Percent

/-- Characters that are no brackets and need no escape in a key: not `%`, `?` or a space, and no
control. -/
def PlainChar (c : Char) : Prop :=
  c ∉ ['[', ']', '%', '?', ' '] ∧ 0x1F < c.toNat ∧ c.toNat ≠ 0x7F

/-- Bytes that stand for themselves in a key. -/
def PlainByte (b : UInt8) : Prop :=
  Byte.isBracket b = false ∧ Percent.Plain b ∧ b ≠ Byte.percent

instance (b : UInt8) : Decidable (PlainByte b) :=
  inferInstanceAs (Decidable (_ ∧ _))

theorem forall_plainByte_utf8EncodeChar (c : Char) :
    (∀ b ∈ String.utf8EncodeChar c, PlainByte b) ↔ PlainChar c := by
  have hspecial : c ∉ ['[', ']', '%', '?', ' '] ↔ c.toNat ∉ [0x5B, 0x5D, 0x25, 0x3F, 0x20] := by
    simp only [List.mem_cons, List.not_mem_nil, or_false, ← Char.toNat_inj]
    rfl
  rw [PlainChar, hspecial]
  by_cases hc : c.toNat < 0x80
  · have htable : ∀ n : Fin 0x80, PlainByte (UInt8.ofNat n) ↔
        n.val ∉ [0x5B, 0x5D, 0x25, 0x3F, 0x20] ∧ 0x1F < n.val ∧ n.val ≠ 0x7F := by
      decide +kernel
    rw [Utf8.utf8EncodeChar_ascii hc, List.forall_mem_singleton]
    exact htable ⟨c.toNat, hc⟩
  · refine iff_of_true (fun b hb => ?_) ?_
    · exact Byte.forall_of_fin (P := fun b => ¬ b < 0x80 → PlainByte b) (by decide +kernel) b
        (Utf8.not_ascii_of_mem_utf8EncodeChar hc b hb)
    · simp only [List.mem_cons, List.not_mem_nil, or_false]
      omega

/-- Text of plain characters. -/
def PlainText (text : String) : Prop :=
  ∀ c ∈ text.toList, PlainChar c

theorem plainText_iff {text : String} :
    PlainText text ↔ RawKeyPath.Bare (Utf8.encode text) ∧
      ∀ offset, Percent.decode false offset (Utf8.encode text) = .ok text := by
  have hbytes : PlainText text ↔ ∀ b ∈ Utf8.encode text, PlainByte b := by
    rw [← text.ofList_toList, Utf8.encode_ofList, List.forall_mem_flatMap, PlainText,
      String.toList_ofList]
    exact forall₂_congr fun c _ => (forall_plainByte_utf8EncodeChar c).symm
  simp only [hbytes, PlainByte, Percent.decode_self_iff, forall_const]
  exact ⟨fun h => ⟨fun b hb => (h b hb).1, fun b hb => (h b hb).2⟩,
    fun h b hb => ⟨h.1 b hb, h.2 b hb⟩⟩

/-! ### Segments -/

/-- Digits that are read as a position between brackets. -/
def SpellsIndex (text : String) : Prop :=
  (∀ c ∈ text.toList, c.isDigit = true) ∧
    Nat.ofDigits 10 (text.toList.map fun c => c.toNat - 48).reverse < 2 ^ 64

theorem spellsIndex_iff {text : String} :
    SpellsIndex text ↔ (∀ b ∈ Utf8.encode text, Byte.isDigit b = true) ∧
      RawSegment.number (Utf8.encode text) < 2 ^ 64 := by
  have hdigits : (∀ b ∈ Utf8.encode text, Byte.isDigit b = true) ↔
      ∀ c ∈ text.toList, c.isDigit = true := by
    rw [← List.all_eq_true, Byte.all_isDigit_encode, List.all_eq_true]
  rw [SpellsIndex, hdigits]
  refine and_congr_right fun hall => ?_
  have hascii : ∀ c ∈ text.toList, c.toNat < 0x80 := fun c hc => by
    have hdigit := hall c hc
    simp only [Char.isDigit, Bool.and_eq_true, decide_eq_true_eq] at hdigit
    have hle : c.val.toNat ≤ 57 := UInt32.le_iff_toNat_le.1 hdigit.2
    exact Nat.lt_of_le_of_lt hle (by decide)
  have hencode : (Utf8.encode text).map (fun b => b.toNat - 48) =
      text.toList.map fun c => c.toNat - 48 := by
    conv_lhs => rw [← text.ofList_toList, Utf8.encode_ofList_ascii hascii, List.map_map]
    refine List.map_congr_left fun c hc => ?_
    rw [Function.comp_apply, UInt8.toNat_ofNat', Nat.mod_eq_of_lt]
    exact Nat.lt_trans (hascii c hc) (by decide)
  rw [RawSegment.number, hencode]

namespace Segment

/-- Segments that read back as they are shown. -/
def Plain : Segment → Prop
  | .name text => text ≠ "" ∧ PlainText text ∧ ¬ SpellsIndex text
  | .index position => position < 2 ^ 64
  | .append => True

/-- What is shown between the brackets. -/
def shown : Segment → List UInt8
  | .name text => Utf8.encode text
  | .index position => Utf8.encode (toString position)
  | .append => []

theorem encode_render (s : Segment) : Utf8.encode s.render = RawKeyPath.group s.shown := by
  cases s with
  | name text => rw [render, Utf8.encode_append, Utf8.encode_append]; rfl
  | index position => rw [render, Utf8.encode_append, Utf8.encode_append]; rfl
  | append => rfl

theorem bare_decimal (n : Nat) : RawKeyPath.Bare (Utf8.encode (toString n)) := by
  intro b hb
  exact Percent.isBracket_of_isCanonical b
    (Canonical.isCanonical_of_isDigit (List.all_eq_true.1 (Byte.all_isDigit_decimal n) b hb))

theorem Plain.bare {s : Segment} (h : s.Plain) : RawKeyPath.Bare s.shown := by
  cases s with
  | name text => exact (plainText_iff.1 h.2.1).1
  | index position => exact bare_decimal position
  | append => exact nofun

theorem Plain.decode {s : Segment} (h : s.Plain) (offset position : Nat) :
    (RawSegment.classify s.shown position).decode false offset = .ok s := by
  cases s with
  | name text =>
    obtain ⟨hne, hplain, hindex⟩ := h
    cases RawSegment.reads_classify offset (Utf8.encode text) position with
    | append hnil => exact absurd (Utf8.encode_eq_nil hnil) hne
    | index _ hdigits hfits => exact absurd (spellsIndex_iff.2 ⟨hdigits, hfits⟩) hindex
    | name _ _ _ htext =>
      rw [shown, htext, (plainText_iff.1 hplain).2]
      rfl
  | index position => rw [shown, Canonical.classify_index h]; rfl
  | append => rfl

end Segment

namespace RawKeyPath
variable {front back content back' : List UInt8}

/-- Bytes without brackets cannot reach behind the bracket that ends others. -/
theorem prefix_of_bare (h : front ++ back = content ++ back') (hcontent : Bare content)
    (hback : ∀ b ∈ back.head?, Byte.isBracket b = true) : content <+: front := by
  rcases List.append_eq_append_iff.1 h with ⟨later, rfl, rfl⟩ | ⟨later, rfl, -⟩
  · cases later with
    | nil => simp
    | cons b later =>
      have hb := hback b rfl
      rw [hcontent b (by simp)] at hb
      cases hb
  · exact List.prefix_append _ _

/-- What is cut off at a bracket and no shorter than what stands in front of one is the same. -/
theorem eq_of_cut (h : front ++ back = content ++ back') (hcontent : Bare content)
    (hback : ∀ b ∈ back.head?, Byte.isBracket b = true) (hlen : front.length ≤ content.length) :
    content = front ∧ back' = back := by
  obtain rfl := (prefix_of_bare h hcontent hback).eq_of_length_le hlen
  exact ⟨rfl, (List.append_cancel_left h).symm⟩

/-- A segment that comes back from where it is shown is plain, and was cut out as a whole. -/
theorem plain_of_decode {s : Segment} {offset position : Nat} (hcontent : Bare content)
    (hdecode : (RawSegment.classify content position).decode false offset = .ok s)
    (hcut : s.shown ++ Byte.closeBracket :: back = content ++ Byte.closeBracket :: back') :
    s.Plain ∧ back' = back := by
  have hbracket {bytes : List UInt8} :
      ∀ b ∈ (Byte.closeBracket :: bytes).head?, Byte.isBracket b = true := by
    rintro _ ⟨⟩
    rfl
  have hback (hlen : s.shown.length ≤ content.length) : content = s.shown ∧ back' = back := by
    obtain ⟨heq, hback⟩ := eq_of_cut hcut hcontent hbracket hlen
    exact ⟨heq, (List.cons.inj hback).2⟩
  cases RawSegment.reads_classify offset content position with
  | append hnil hsegment =>
    rw [hsegment] at hdecode
    cases hdecode
    exact ⟨trivial, (hback (Nat.zero_le _)).2⟩
  | index _ _ hfits hsegment =>
    rw [hsegment] at hdecode
    cases hdecode
    exact ⟨hfits, (hback (prefix_of_bare hcut.symm (Segment.bare_decimal _) hbracket).length_le).2⟩
  | name hne hother hsegment htext =>
    rw [htext] at hdecode
    obtain ⟨text, htext, rfl⟩ := Result.map_eq_ok.1 hdecode
    obtain ⟨rfl, hrest⟩ := hback (Percent.length_le_of_decode htext)
    refine ⟨⟨?_, plainText_iff.2 ⟨hcontent, fun _ => Percent.decode_offset htext⟩, ?_⟩, hrest⟩
    · rintro rfl
      exact hne rfl
    · rw [spellsIndex_iff]
      rintro ⟨hdigits, hfits⟩
      rcases hother with ⟨b, hb, hdigit⟩ | hlarge
      · rw [hdigits b hb] at hdigit
        cases hdigit
      · exact absurd hfits (Nat.not_lt.2 hlarge)

theorem forall_plain_of_decode {segments : List Segment} {contents : List (List UInt8)}
    {offset position : Nat} (hbare : ∀ c ∈ contents, Bare c)
    (hdecode : (classifyAll position contents).mapM (RawSegment.decode false offset) =
      .ok segments)
    (hcut : (segments.map Segment.shown).flatMap group = contents.flatMap group) :
    ∀ s ∈ segments, s.Plain := by
  induction contents generalizing position segments with
  | nil =>
    cases hdecode
    exact nofun
  | cons content contents ih =>
    obtain ⟨hcontent, hbare⟩ := List.forall_mem_cons.1 hbare
    rw [classifyAll, List.mapM_cons] at hdecode
    obtain ⟨s, hs, hdecode⟩ := Result.bind_eq_ok.1 hdecode
    obtain ⟨segments, hsegments, hdecode⟩ := Result.bind_eq_ok.1 hdecode
    cases hdecode
    simp only [List.map_cons, List.flatMap_cons, group, List.append_assoc, List.cons_append,
      List.nil_append, List.cons.injEq, true_and] at hcut
    obtain ⟨hplain, hrest⟩ := plain_of_decode hcontent hs hcut
    exact List.forall_mem_cons.2 ⟨hplain, ih hbare hsegments hrest.symm⟩

end RawKeyPath

/-! ### Paths -/

namespace KeyPath

theorem encode_render (path : KeyPath) :
    Utf8.encode path.render =
      Utf8.encode path.root ++ (path.segments.map Segment.shown).flatMap RawKeyPath.group := by
  have hfold (segments : List Segment) : ∀ key : String,
      Utf8.encode (segments.foldl (fun key segment => key ++ segment.render) key) =
        Utf8.encode key ++ (segments.map Segment.shown).flatMap RawKeyPath.group := by
    induction segments with
    | nil => simp
    | cons s segments ih =>
      intro key
      rw [List.foldl_cons, ih, Utf8.encode_append, Segment.encode_render, List.map_cons,
        List.flatMap_cons, List.append_assoc]
  exact hfold path.segments path.root

theorem parse_eq_ok {key : String} {path : KeyPath} :
    parse key = .ok path ↔
      ∃ raw, RawKeyPath.tokenize (Utf8.encode key) = .ok raw ∧ raw.decode false 0 = .ok path := by
  simp only [parse, tokenize, Result.bind_eq_ok, Result.mapError_eq_ok]

theorem decode_classifyAll_shown {segments : List Segment} (h : ∀ s ∈ segments, s.Plain)
    (offset position : Nat) :
    (RawKeyPath.classifyAll position (segments.map Segment.shown)).mapM
      (RawSegment.decode false offset) = .ok segments := by
  induction segments generalizing position with
  | nil => rfl
  | cons s segments ih =>
    obtain ⟨hs, hsegments⟩ := List.forall_mem_cons.1 h
    rw [List.map_cons, RawKeyPath.classifyAll, List.mapM_cons, hs.decode, ih hsegments]
    rfl

/-- A path reads back from how it is shown just if its root and its names stand for themselves, and
no name is taken for a position or for none. -/
theorem parse_render_iff (path : KeyPath) :
    parse path.render = .ok path ↔
      path.root ≠ "" ∧ PlainText path.root ∧ ∀ s ∈ path.segments, s.Plain := by
  have hstart : ∀ b ∈ ((path.segments.map Segment.shown).flatMap RawKeyPath.group).head?,
      Byte.isBracket b = true := by
    cases path.segments with
    | nil => exact nofun
    | cons => rintro _ ⟨⟩; rfl
  rw [parse_eq_ok, encode_render]
  constructor
  · rintro ⟨raw, hraw, hdecode⟩
    obtain ⟨hne, contents, ⟨hbare, hcut⟩, hsegments⟩ := RawKeyPath.tokenize_eq_ok_iff.1 hraw
    obtain ⟨hrootBare, hbare⟩ := List.forall_mem_cons.1 hbare
    obtain ⟨root, hroot, hdecode⟩ := Result.bind_eq_ok.1 hdecode
    obtain ⟨segments, hmap, hdecode⟩ := Result.bind_eq_ok.1 hdecode
    cases hdecode
    obtain ⟨heq, hrest⟩ :=
      RawKeyPath.eq_of_cut hcut hrootBare hstart (Percent.length_le_of_decode hroot)
    rw [heq] at hne hrootBare hroot
    rw [hsegments] at hmap
    refine ⟨?_, plainText_iff.2 ⟨hrootBare, fun _ => Percent.decode_offset hroot⟩,
      RawKeyPath.forall_plain_of_decode hbare hmap hrest.symm⟩
    rintro rfl
    exact hne rfl
  · rintro ⟨hne, hroot, hsegments⟩
    obtain ⟨hbare, hdecode⟩ := plainText_iff.1 hroot
    let contents := path.segments.map Segment.shown
    refine ⟨⟨Utf8.encode path.root,
      RawKeyPath.classifyAll (Utf8.encode path.root).length contents⟩, ?_, ?_⟩
    · refine RawKeyPath.tokenize_eq_ok_iff.2
        ⟨mt Utf8.encode_eq_nil hne, contents, ⟨?_, rfl⟩, rfl⟩
      exact List.forall_mem_cons.2
        ⟨hbare, List.forall_mem_map.2 fun s hs => (hsegments s hs).bare⟩
    · rw [RawKeyPath.decode, hdecode, Result.ok_bind, decode_classifyAll_shown hsegments]
      rfl

/-- Digits too large for a position are a name; what is not plain comes back as something else. -/
example :
    parse (render ⟨"é", [.name "18446744073709551616", .index 7, .append]⟩) =
        .ok ⟨"é", [.name "18446744073709551616", .index 7, .append]⟩ ∧
      parse (render ⟨"a", [.name "b][7"]⟩) = .ok ⟨"a", [.name "b", .index 7]⟩ ∧
      parse (render ⟨"a", [.name "%41"]⟩) = .ok ⟨"a", [.name "A"]⟩ := by
  refine ⟨?_, ?_, ?_⟩ <;> cbv

end KeyPath

end NestedQuery
