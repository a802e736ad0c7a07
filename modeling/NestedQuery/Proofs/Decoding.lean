import NestedQuery.Proofs.Ascii
import NestedQuery.Proofs.Percent

/-!
# What a component decodes to

The single pass over a component finds what three looks at it would find: the first `%` that starts
no escape, the first forbidden character and the first `?` (`scan_eq`). So a component is read
exactly if it is `Strict`, which is said of its bytes alone, and what its escapes and `+`s spell is
UTF-8 (`decode_eq_ok_iff`). How a `+` is read does not matter for that (`valid_unescape_spaces`),
nor where the component stands (`decode_offset`). No escape reaches over a separator, so bytes are
strict if they are so on both sides of it (`strict_cut`).
-/

namespace NestedQuery

namespace Percent

/-! ### Escapes -/

/-- The byte that two hex digits at the front spell. -/
def escape? : List UInt8 → Option UInt8
  | h :: l :: _ =>
    match Byte.hexValue? h, Byte.hexValue? l with
    | some h, some l => some (h * 0x10 + l)
    | _, _ => none
  | _ => none

theorem escape?_of_not_hex {h l : UInt8} (rest : List UInt8)
    (hnone : ∀ hi lo, Byte.hexValue? h = some hi → Byte.hexValue? l = some lo → False) :
    escape? (h :: l :: rest) = none := by
  rw [escape?]
  split
  · rename_i hh hl
    exact (hnone _ _ hh hl).elim
  · rfl

theorem escape?_of_short {rest : List UInt8}
    (hshort : ∀ h l later, rest = h :: l :: later → False) : escape? rest = none := by
  match rest with
  | [] | [_] => rfl
  | h :: l :: later => exact (hshort _ _ _ rfl).elim

/-- The bytes with the byte that it spells in place of each escape. -/
def unescape : List UInt8 → List UInt8
  | [] => []
  | b :: rest =>
    if b = Byte.percent then
      match rest with
      | h :: l :: rest =>
        match Byte.hexValue? h, Byte.hexValue? l with
        | some hi, some lo => (hi * 0x10 + lo) :: unescape rest
        | _, _ => b :: unescape (h :: l :: rest)
      | rest => b :: unescape rest
    else b :: unescape rest

theorem unescape_cons_of_ne {b : UInt8} (h : b ≠ Byte.percent) (rest : List UInt8) :
    unescape (b :: rest) = b :: unescape rest := by
  rw [unescape.eq_def]
  exact if_neg h

theorem unescape_escape {h l hi lo : UInt8} (hh : Byte.hexValue? h = some hi)
    (hl : Byte.hexValue? l = some lo) (rest : List UInt8) :
    unescape (Byte.percent :: h :: l :: rest) = (hi * 0x10 + lo) :: unescape rest := by
  rw [unescape, if_pos rfl]
  simp only [hh, hl]

/-- The bytes with a space in place of each `+`, if a `+` is read as one. -/
def spaces (spaceAsPlus : Bool) (bytes : List UInt8) : List UInt8 :=
  if spaceAsPlus then bytes.map fun b => if b = Byte.plus then Byte.space else b else bytes

/-! ### What a scan notes -/

/-- What `f` finds first at one of the bytes, with the position of that byte. -/
def first? {α : Type} (f : List UInt8 → Option α) (index : Nat) : List UInt8 → Option (α × Nat)
  | [] => none
  | b :: rest => ((f (b :: rest)).map (·, index)).or (first? f (index + 1) rest)

/-- A `%` at the front that starts no escape. -/
def malformed? : List UInt8 → Option Unit
  | [] => none
  | b :: rest => if b = Byte.percent && (escape? rest).isNone then some () else none

/-- The control at the front, raw or escaped, or the raw space. -/
def forbidden? : List UInt8 → Option UInt8
  | [] => none
  | b :: rest =>
    if b = Byte.percent then (escape? rest).filter Byte.isControl
    else if b = Byte.space || Byte.isControl b then some b
    else none

def question? : List UInt8 → Option Unit
  | [] => none
  | b :: _ => if b = Byte.questionMark then some () else none

theorem plain_of_hexValue? (b : UInt8) : (Byte.hexValue? b).isSome = true →
    b ≠ Byte.percent ∧ b ≠ Byte.questionMark ∧ b ≠ Byte.space ∧ b ≠ Byte.plus ∧
      Byte.isControl b = false :=
  Byte.forall_of_fin (P := fun b => (Byte.hexValue? b).isSome = true →
    b ≠ Byte.percent ∧ b ≠ Byte.questionMark ∧ b ≠ Byte.space ∧ b ≠ Byte.plus ∧
      Byte.isControl b = false) (by decide +kernel) b

variable {α : Type} {read : Bool}

theorem spaces_cons (b : UInt8) (rest : List UInt8) :
    spaces read (b :: rest) =
      (if b = Byte.plus && read then Byte.space else b) :: spaces read rest := by
  cases read <;> simp [spaces]

theorem spaces_cons_of_ne {b : UInt8} (h : b ≠ Byte.plus) (rest : List UInt8) :
    spaces read (b :: rest) = b :: spaces read rest := by
  simp [spaces_cons, h]

/-- Nothing is found at the digits of an escape. -/
theorem first?_skip {f : List UInt8 → Option α} {b h l : UInt8} {rest : List UInt8} (index : Nat)
    (hh : f (h :: l :: rest) = none) (hl : f (l :: rest) = none) :
    first? f index (b :: h :: l :: rest) =
      ((f (b :: h :: l :: rest)).map (·, index)).or (first? f (index + 3) rest) := by
  simp [first?, hh, hl]

namespace Scan

theorem bytes_pushAll (s : Scan) (bytes : List UInt8) :
    (s.pushAll bytes).bytes = bytes.foldl ByteArray.push s.bytes := by
  induction bytes generalizing s with
  | nil => rfl
  | cons b bytes ih => exact ih (s.push b)

/-- What a scan is after it has passed over bytes without a malformed escape. -/
def pass (s : Scan) (read : Bool) (index : Nat) (bytes : List UInt8) : Scan where
  bytes := (s.pushAll (unescape (spaces read bytes))).bytes
  forbidden := s.forbidden.or (first? forbidden? index bytes)
  question := s.question.or ((first? question? index bytes).map Prod.snd)

theorem raw_eq (s : Scan) (index : Nat) {b : UInt8} (hb : b ≠ Byte.percent) (rest : List UInt8) :
    s.raw read b index =
      { bytes := s.bytes.push (if b = Byte.plus && read then Byte.space else b)
        forbidden := s.forbidden.or ((forbidden? (b :: rest)).map (·, index))
        question := s.question.or ((question? (b :: rest)).map fun _ => index) } := by
  by_cases hplus : b = Byte.plus
  · subst hplus
    cases read <;> simp +decide [raw, forbidden?, question?, push]
  · by_cases hquestion : b = Byte.questionMark
    · subst hquestion
      simp +decide [raw, forbidden?, question?, push, ask]
    · rw [raw, forbidden?, question?, if_neg hb, if_neg hquestion]
      split_ifs <;> simp_all [push, forbid]

theorem pass_raw (s : Scan) (index : Nat) {b : UInt8} (hb : b ≠ Byte.percent)
    (rest : List UInt8) :
    (s.raw read b index).pass read (index + 1) rest = s.pass read index (b :: rest) := by
  have hb' : (if b = Byte.plus && read then Byte.space else b) ≠ Byte.percent := by
    split_ifs
    exacts [by decide, hb]
  rw [raw_eq s index hb rest, pass, pass, spaces_cons, unescape_cons_of_ne hb']
  simp only [first?, bytes_pushAll, Option.or_assoc, Option.map_or, Option.map_map]
  rfl

theorem pass_escaped (s : Scan) (index : Nat) {h l hi lo : UInt8} (hh : Byte.hexValue? h = some hi)
    (hl : Byte.hexValue? l = some lo) (rest : List UInt8) :
    (s.escaped (hi * 0x10 + lo) index).pass read (index + 3) rest =
      s.pass read index (Byte.percent :: h :: l :: rest) := by
  obtain ⟨hh1, hh2, hh3, hh4, hh5⟩ := plain_of_hexValue? h (by simp [hh])
  obtain ⟨hl1, hl2, hl3, hl4, hl5⟩ := plain_of_hexValue? l (by simp [hl])
  have hforbidden : first? forbidden? index (Byte.percent :: h :: l :: rest) =
      (if Byte.isControl (hi * 0x10 + lo) then some (hi * 0x10 + lo, index) else none).or
        (first? forbidden? (index + 3) rest) := by
    rw [first?_skip index (by simp [forbidden?, *]) (by simp [forbidden?, *])]
    congr 1
    simp only [forbidden?, if_pos, escape?, hh, hl, Option.filter_some]
    split_ifs <;> rfl
  have hquestion : first? question? index (Byte.percent :: h :: l :: rest) =
      first? question? (index + 3) rest := by
    rw [first?_skip index (by simp [question?, *]) (by simp [question?, *])]
    rfl
  rw [pass, pass, hforbidden, hquestion, spaces_cons_of_ne (by decide), spaces_cons_of_ne hh4,
    spaces_cons_of_ne hl4, unescape_escape hh hl]
  simp only [bytes_pushAll, List.foldl_cons, escaped]
  split_ifs <;> simp [push, forbid]

end Scan

theorem scan_eq (read : Bool) (index : Nat) (s : Scan) (bytes : List UInt8) :
    scan read index s bytes =
      match first? malformed? index bytes with
      | some (_, i) => .error (.invalidPercentEncoding i)
      | none => .ok (s.pass read index bytes) := by
  fun_induction scan read index s bytes with
  | case1 index s =>
    simp [first?, Scan.pass, spaces, unescape, Scan.pushAll]
  | case2 index s h l rest hi lo hl hh ih =>
    obtain ⟨hh1, -⟩ := plain_of_hexValue? h (by simp [hh])
    obtain ⟨hl1, -⟩ := plain_of_hexValue? l (by simp [hl])
    rw [ih, Scan.pass_escaped s index hh hl,
      first?_skip index (by simp [malformed?, hh1]) (by simp [malformed?, hl1])]
    simp [malformed?, escape?, hh, hl]
  | case3 index s h l rest hnone => simp [first?, malformed?, escape?_of_not_hex rest hnone]
  | case4 index s rest hshort => simp [first?, malformed?, escape?_of_short hshort]
  | case5 index s b rest hb ih =>
    rw [ih, Scan.pass_raw s index hb]
    simp [first?, malformed?, hb]

/-- What comes of a component, in the order in which its defects are reported. -/
theorem decode_eq (read : Bool) (offset : Nat) (bytes : List UInt8) :
    decode read offset bytes =
      match first? malformed? offset bytes, Utf8.decode? (unescape (spaces read bytes)),
        first? forbidden? offset bytes, first? question? offset bytes with
      | some (_, i), _, _, _ => .error (.invalidPercentEncoding i)
      | none, none, _, _ => .error (.invalidUtf8 offset)
      | none, some _, some (b, i), _ => .error (.invalidCharacter (Char.ofNat b.toNat) i)
      | none, some _, none, some (_, i) => .error (.unexpectedQuestionMark i)
      | none, some text, none, none => .ok text := by
  rw [decode, scan_eq]
  cases first? malformed? offset bytes with
  | some found => rfl
  | none =>
    have hbytes : (Scan.pass {} read offset bytes).bytes.data.toList =
        unescape (spaces read bytes) :=
      Scan.toList_bytes_pushAll {} _
    rw [Result.ok_bind, Scan.finish, hbytes]
    cases Utf8.decode? (unescape (spaces read bytes)) with
    | none => rfl
    | some text =>
      simp only [Scan.pass, Option.none_or]
      cases first? forbidden? offset bytes with
      | some found => rfl
      | none => cases first? question? offset bytes <;> rfl

/-! ### Components that are read -/

/-- A byte that may stand raw in a query. -/
def Plain (b : UInt8) : Prop :=
  Byte.isControl b = false ∧ b ≠ Byte.space ∧ b ≠ Byte.questionMark

instance (b : UInt8) : Decidable (Plain b) :=
  inferInstanceAs (Decidable (_ ∧ _))

/-- Bytes without control, space and `?`, in which every `%` starts an escape, and that of no
control. -/
structure Strict (bytes : List UInt8) : Prop where
  plain : ∀ b ∈ bytes, Plain b
  escaped : ∀ rest, Byte.percent :: rest <:+ bytes →
    ∃ c ∈ escape? rest, Byte.isControl c = false

theorem strict_nil : Strict [] where
  plain := by simp
  escaped := by simp

theorem strict_cons {b : UInt8} {rest : List UInt8} :
    Strict (b :: rest) ↔
      Plain b ∧ (b = Byte.percent → ∃ c ∈ escape? rest, Byte.isControl c = false) ∧
        Strict rest := by
  constructor
  · rintro ⟨plain, escaped⟩
    obtain ⟨hb, plain⟩ := List.forall_mem_cons.1 plain
    refine ⟨hb, fun hpercent => escaped rest ?_, plain, fun later hlater => escaped later ?_⟩
    · subst hpercent
      exact List.suffix_refl _
    · exact hlater.trans (List.suffix_cons b rest)
  · rintro ⟨hb, hpercent, plain, escaped⟩
    refine ⟨List.forall_mem_cons.2 ⟨hb, plain⟩, fun later hlater => ?_⟩
    rcases List.suffix_cons_iff.1 hlater with heq | hlater
    · cases heq
      exact hpercent rfl
    · exact escaped later hlater

/-- Nothing is noted at the front of strict bytes. -/
theorem none_at_front_iff (b : UInt8) (rest : List UInt8) :
    (malformed? (b :: rest) = none ∧ forbidden? (b :: rest) = none ∧
        question? (b :: rest) = none) ↔
      Plain b ∧ (b = Byte.percent → ∃ c ∈ escape? rest, Byte.isControl c = false) := by
  by_cases hpercent : b = Byte.percent
  · subst hpercent
    have hquestion : question? (Byte.percent :: rest) = none := rfl
    have hplain : Plain Byte.percent := by decide
    cases hescape : escape? rest <;>
      simp [malformed?, forbidden?, hescape, hquestion, hplain, Option.filter_some]
  · grind [malformed?, forbidden?, question?, Plain]

theorem first?_eq_none_iff (index : Nat) (bytes : List UInt8) :
    (first? malformed? index bytes = none ∧ first? forbidden? index bytes = none ∧
      first? question? index bytes = none) ↔ Strict bytes := by
  induction bytes generalizing index with
  | nil => simp [first?, strict_nil]
  | cons b rest ih =>
    have hfront := none_at_front_iff b rest
    simp only [first?, Option.or_eq_none_iff, Option.map_eq_none_iff]
    rw [strict_cons, ← ih (index + 1)]
    constructor
    · rintro ⟨⟨h1, h1'⟩, ⟨h2, h2'⟩, h3, h3'⟩
      obtain ⟨hb, hpercent⟩ := hfront.1 ⟨h1, h2, h3⟩
      exact ⟨hb, hpercent, h1', h2', h3'⟩
    · rintro ⟨hb, hpercent, h1', h2', h3'⟩
      obtain ⟨h1, h2, h3⟩ := hfront.2 ⟨hb, hpercent⟩
      exact ⟨⟨h1, h1'⟩, ⟨h2, h2'⟩, h3, h3'⟩

theorem decode_eq_ok_iff {offset : Nat} {bytes : List UInt8} {text : String} :
    decode read offset bytes = .ok text ↔
      Strict bytes ∧ Utf8.decode? (unescape (spaces read bytes)) = some text := by
  rw [decode_eq, ← first?_eq_none_iff offset]
  cases first? malformed? offset bytes with
  | some => simp
  | none =>
    cases Utf8.decode? (unescape (spaces read bytes)) with
    | none => simp
    | some =>
      cases first? forbidden? offset bytes with
      | some => simp
      | none => cases first? question? offset bytes <;> simp

/-- Whether a component is read, and as what, does not depend on where it stands. -/
theorem decode_offset {offset offset' : Nat} {bytes : List UInt8} {text : String}
    (h : decode read offset bytes = .ok text) : decode read offset' bytes = .ok text :=
  decode_eq_ok_iff.2 (decode_eq_ok_iff.1 h)

/-! ### Components side by side -/

theorem hexValue?_space (b : UInt8) :
    Byte.hexValue? (if b = Byte.plus && read then Byte.space else b) = Byte.hexValue? b := by
  split_ifs with h
  · simp only [Bool.and_eq_true, decide_eq_true_eq] at h
    rw [h.1]
    rfl
  · rfl

theorem escape?_spaces (read : Bool) (bytes : List UInt8) :
    escape? (spaces read bytes) = escape? bytes := by
  match bytes with
  | [] => cases read <;> rfl
  | [b] => rw [spaces_cons]; cases read <;> rfl
  | h :: l :: rest => simp only [spaces_cons, escape?, hexValue?_space]

theorem unescape_of_escape?_eq_none {rest : List UInt8} (hnone : escape? rest = none) :
    unescape (Byte.percent :: rest) = Byte.percent :: unescape rest := by
  match rest with
  | [] | [_] => rfl
  | h :: l :: rest =>
    rw [unescape, if_pos rfl]
    split
    · rename_i hh hl
      simp [escape?, hh, hl] at hnone
    · rfl

theorem forall₂_unescape_spaces (read : Bool) (bytes : List UInt8) :
    List.Forall₂ (fun a b => a = b ∨ a < 0x80 ∧ b < 0x80) (unescape bytes)
      (unescape (spaces read bytes)) := by
  have percent (read : Bool) (rest : List UInt8) :
      spaces read (Byte.percent :: rest) = Byte.percent :: spaces read rest :=
    spaces_cons_of_ne (by decide) rest
  fun_induction unescape bytes with
  | case1 => cases read <;> exact .nil
  | case2 h l rest hi lo hl hh ih =>
    obtain ⟨-, -, -, hh4, -⟩ := plain_of_hexValue? h (by simp [hh])
    obtain ⟨-, -, -, hl4, -⟩ := plain_of_hexValue? l (by simp [hl])
    rw [percent, spaces_cons_of_ne hh4, spaces_cons_of_ne hl4, unescape_escape hh hl]
    exact .cons (.inl rfl) ih
  | case3 h l rest hnone ih =>
    have hescape := (escape?_spaces read _).trans (escape?_of_not_hex rest hnone)
    rw [percent, unescape_of_escape?_eq_none hescape]
    exact .cons (.inl rfl) ih
  | case4 rest hshort ih =>
    have hescape := (escape?_spaces read _).trans (escape?_of_short hshort)
    rw [percent, unescape_of_escape?_eq_none hescape]
    exact .cons (.inl rfl) ih
  | case5 b rest hb ih =>
    rw [spaces_cons]
    by_cases hplus : b = Byte.plus && read
    · rw [if_pos hplus, unescape_cons_of_ne (by decide)]
      simp only [Bool.and_eq_true, decide_eq_true_eq] at hplus
      exact .cons (.inr ⟨by rw [hplus.1]; decide, by decide⟩) ih
    · rw [if_neg hplus, unescape_cons_of_ne hb]
      exact .cons (.inl rfl) ih

/-- Whether a `+` is read as itself or as a space is all the same to UTF-8. -/
theorem valid_unescape_spaces (read : Bool) (bytes : List UInt8) :
    Utf8.Valid (unescape (spaces read bytes)) ↔ Utf8.Valid (unescape bytes) := by
  have h := forall₂_unescape_spaces read bytes
  refine ⟨.of_forall₂ (h.flip.imp fun a b hab => ?_), .of_forall₂ h⟩
  rcases hab with heq | ⟨ha, hb⟩
  exacts [.inl heq.symm, .inr ⟨hb, ha⟩]

theorem exists_decode_iff (read : Bool) (offset : Nat) (bytes : List UInt8) :
    (∃ text, decode read offset bytes = .ok text) ↔
      Strict bytes ∧ Utf8.Valid (unescape bytes) := by
  simp only [decode_eq_ok_iff, exists_and_left]
  exact and_congr_right fun _ => valid_unescape_spaces read bytes

theorem escape?_append {front : List UInt8} {b : UInt8} (h : Byte.hexValue? b = none)
    (back : List UInt8) : escape? (front ++ b :: back) = escape? front := by
  match front with
  | [] => cases back <;> simp [escape?, h]
  | [_] => simp [escape?, h]
  | _ :: _ :: _ => rfl

/-- Strict bytes are strict on both sides of a separator. -/
theorem strict_cut {b : UInt8}
    (hb : b ∈ [Byte.ampersand, Byte.equals, Byte.openBracket, Byte.closeBracket])
    {front back : List UInt8} : Strict (front ++ b :: back) ↔ Strict front ∧ Strict back := by
  obtain ⟨hhex, hplain, hpercent⟩ : Byte.hexValue? b = none ∧ Plain b ∧ b ≠ Byte.percent := by
    simp only [List.mem_cons, List.not_mem_nil, or_false] at hb
    rcases hb with rfl | rfl | rfl | rfl <;> decide
  induction front with
  | nil => simp [strict_nil, strict_cons, hplain, hpercent]
  | cons c front ih =>
    rw [List.cons_append, strict_cons, strict_cons, escape?_append hhex, ih]
    simp only [and_assoc]

theorem strict_of_digits {digits : List UInt8} (h : digits.all Byte.isDigit = true) :
    Strict digits ∧ unescape digits = digits := by
  induction digits with
  | nil => exact ⟨strict_nil, rfl⟩
  | cons d digits ih =>
    rw [List.all_cons, Bool.and_eq_true] at h
    obtain ⟨hpercent, -, hquestion, hspace, hcontrol⟩ :=
      ne_of_isLiteral d (isLiteral_of_isDigit d h.1)
    obtain ⟨hstrict, hunescape⟩ := ih h.2
    refine ⟨strict_cons.2 ⟨⟨hcontrol, hspace, hquestion⟩, fun h => absurd h hpercent, hstrict⟩, ?_⟩
    rw [unescape_cons_of_ne hpercent, hunescape]

end Percent
end NestedQuery
