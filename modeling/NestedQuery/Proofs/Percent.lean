import NestedQuery.Document.Control
import NestedQuery.Proofs.Result
import NestedQuery.Text.Percent

/-!
# Reading back what is written

`decode_encode`: a component without control characters reads back from its canonical spelling,
where a space may be spelled `+` only if the reader takes it for one. The spelling has no byte that
separates components (`isCanonical_of_mem_encode`). Conversely a component that is read holds no
control character, and is not empty unless its spelling is (`hasControl_of_decode`,
`ne_empty_of_decode`).
-/

namespace NestedQuery

theorem Utf8.encode_eq_nil {text : String} (h : encode text = []) : text = "" := by
  have := decode?_encode text
  rw [h, ← show encode "" = [] from rfl, decode?_encode] at this
  exact (Option.some.inj this).symm

namespace Percent

/-- The bytes of canonical spellings. -/
def isCanonical (b : UInt8) : Bool :=
  isLiteral b || b == Byte.percent || b == Byte.plus

/-- A byte of ASCII at which no query is cut. -/
structure Uncut (b : UInt8) : Prop where
  ascii : b < 0x80
  ne_ampersand : b ≠ Byte.ampersand
  ne_equals : b ≠ Byte.equals
  ne_questionMark : b ≠ Byte.questionMark

/-! ### Classes of bytes -/

theorem ne_of_isLiteral (b : UInt8) : isLiteral b = true →
    b ≠ Byte.percent ∧ b ≠ Byte.plus ∧ b ≠ Byte.questionMark ∧ b ≠ Byte.space ∧
      Byte.isControl b = false :=
  Byte.forall_of_fin (P := fun b => isLiteral b = true →
    b ≠ Byte.percent ∧ b ≠ Byte.plus ∧ b ≠ Byte.questionMark ∧ b ≠ Byte.space ∧
      Byte.isControl b = false) (by decide +kernel) b

theorem uncut_of_isCanonical {b : UInt8} (h : isCanonical b = true) : Uncut b := by
  obtain ⟨ascii, hamp, heq, hquestion⟩ := Byte.forall_of_fin (P := fun b => isCanonical b = true →
    b < 0x80 ∧ b ≠ Byte.ampersand ∧ b ≠ Byte.equals ∧ b ≠ Byte.questionMark)
    (by decide +kernel) b h
  exact ⟨ascii, hamp, heq, hquestion⟩

theorem isBracket_of_isCanonical (b : UInt8) : isCanonical b = true → Byte.isBracket b = false :=
  Byte.forall_of_fin (P := fun b => isCanonical b = true → Byte.isBracket b = false)
    (by decide +kernel) b

theorem isLiteral_of_isDigit (b : UInt8) (h : Byte.isDigit b = true) : isLiteral b = true := by
  simp [isLiteral, h]

theorem halves (b : UInt8) : b / 0x10 < 16 ∧ b % 0x10 < 16 ∧ b / 0x10 * 0x10 + b % 0x10 = b :=
  Byte.forall_of_fin (P := fun b =>
    b / 0x10 < 16 ∧ b % 0x10 < 16 ∧ b / 0x10 * 0x10 + b % 0x10 = b) (by decide +kernel) b

theorem halves_of_isDigit (b : UInt8) : Byte.isDigit b = true →
    Byte.hexDigit (b / 0x10) = 0x33 ∧ Byte.hexDigit (b % 0x10) = b :=
  Byte.forall_of_fin (P := fun b => Byte.isDigit b = true →
    Byte.hexDigit (b / 0x10) = 0x33 ∧ Byte.hexDigit (b % 0x10) = b) (by decide +kernel) b

theorem isCanonical_hexDigit (n : UInt8) : n < 16 → isCanonical (Byte.hexDigit n) = true :=
  Byte.forall_of_fin (P := fun n => n < 16 → isCanonical (Byte.hexDigit n) = true)
    (by decide +kernel) n

variable {write read : Bool} {text : String}

theorem isCanonical_of_mem_encodeByte {b c : UInt8} (h : c ∈ encodeByte write b) :
    isCanonical c = true := by
  unfold encodeByte at h
  split at h
  · rename_i hb
    rw [List.mem_singleton.1 h, isCanonical, hb]
    rfl
  · split at h
    · rw [List.mem_singleton.1 h]; decide
    · obtain ⟨hhi, hlo, -⟩ := halves b
      simp only [List.mem_cons, List.not_mem_nil, or_false] at h
      rcases h with rfl | rfl | rfl
      exacts [by decide, isCanonical_hexDigit _ hhi, isCanonical_hexDigit _ hlo]

theorem isCanonical_of_mem_encode {c : UInt8} (h : c ∈ encode write text) :
    isCanonical c = true := by
  obtain ⟨b, _, hc⟩ := List.mem_flatMap.1 h
  exact isCanonical_of_mem_encodeByte hc

/-! ### Scanning a canonical spelling -/

theorem raw_of_isLiteral (s : Scan) {b : UInt8} (h : isLiteral b = true) (index : Nat) :
    s.raw read b index = s.push b := by
  obtain ⟨-, hp, hq, hs, hc⟩ := ne_of_isLiteral b h
  simp [Scan.raw, hp, hq, hs, hc]

theorem scan_raw (s : Scan) {b : UInt8} (h : b ≠ Byte.percent) (index : Nat) (rest : List UInt8) :
    scan read index s (b :: rest) = scan read (index + 1) (s.raw read b index) rest := by
  conv_lhs => unfold scan
  exact if_neg h

theorem scan_escape (read : Bool) (s : Scan) {b : UInt8} (hb : Byte.isControl b = false)
    (index : Nat) (rest : List UInt8) :
    scan read index s
        (Byte.percent :: Byte.hexDigit (b / 0x10) :: Byte.hexDigit (b % 0x10) :: rest) =
      scan read (index + 3) (s.push b) rest := by
  obtain ⟨hhi, hlo, hsum⟩ := halves b
  rw [scan, if_pos rfl]
  simp only [Byte.hexValue?_hexDigit _ hhi, Byte.hexValue?_hexDigit _ hlo, hsum, Scan.escaped, hb,
    Bool.false_eq_true, if_false]

theorem scan_encodeByte (hwr : write = true → read = true) (s : Scan) {b : UInt8}
    (hb : Byte.isControl b = false) (index : Nat) (rest : List UInt8) :
    scan read index s (encodeByte write b ++ rest) =
      scan read (index + (encodeByte write b).length) (s.push b) rest := by
  by_cases hl : isLiteral b = true
  · simp only [encodeByte, hl, if_true, List.singleton_append, List.length_singleton]
    rw [scan_raw s (ne_of_isLiteral b hl).1, raw_of_isLiteral s hl]
  · by_cases hs : b = Byte.space ∧ write = true
    · obtain ⟨rfl, rfl⟩ := hs
      obtain rfl := hwr rfl
      rw [show encodeByte true Byte.space = [Byte.plus] from rfl, List.singleton_append,
        scan_raw s (by decide)]
      rfl
    · simp only [encodeByte, hl, Bool.false_eq_true, if_false, Bool.and_eq_true, decide_eq_true_eq,
        hs, List.cons_append, List.nil_append, List.length_cons, List.length_nil]
      exact scan_escape read s hb index rest

def Scan.pushAll (s : Scan) (bytes : List UInt8) : Scan :=
  bytes.foldl Scan.push s

@[simp] theorem Scan.toList_bytes_pushAll (s : Scan) (bytes : List UInt8) :
    (s.pushAll bytes).bytes.data.toList = s.bytes.data.toList ++ bytes := by
  induction bytes generalizing s with
  | nil => simp [pushAll]
  | cons b bs ih =>
    rw [show s.pushAll (b :: bs) = (s.push b).pushAll bs from rfl, ih]
    simp [push]

@[simp] theorem Scan.forbidden_pushAll (s : Scan) (bytes : List UInt8) :
    (s.pushAll bytes).forbidden = s.forbidden := by
  induction bytes generalizing s with
  | nil => rfl
  | cons b bs ih => exact ih (s.push b)

@[simp] theorem Scan.question_pushAll (s : Scan) (bytes : List UInt8) :
    (s.pushAll bytes).question = s.question := by
  induction bytes generalizing s with
  | nil => rfl
  | cons b bs ih => exact ih (s.push b)

theorem scan_encode (hwr : write = true → read = true) (s : Scan) {bytes : List UInt8}
    (hb : ∀ b ∈ bytes, Byte.isControl b = false) (index : Nat) :
    scan read index s (bytes.flatMap (encodeByte write)) = .ok (s.pushAll bytes) := by
  induction bytes generalizing s index with
  | nil => simp [scan, Scan.pushAll]
  | cons b bs ih =>
    rw [List.flatMap_cons, scan_encodeByte hwr s (hb b (by simp)),
      ih _ fun c hc => hb c (by simp [hc])]
    rfl

theorem forall_isControl (h : hasControl text = false) :
    ∀ b ∈ Utf8.encode text, Byte.isControl b = false := by
  simpa [hasControl] using h

theorem finish_pushAll (offset : Nat) :
    (Scan.pushAll {} (Utf8.encode text)).finish offset = .ok text := by
  simp [Scan.finish, Utf8.decode?_encode]

theorem decode_encode (hwr : write = true → read = true) (h : hasControl text = false)
    (offset : Nat) : decode read offset (encode write text) = .ok text := by
  rw [decode, encode, scan_encode hwr {} (forall_isControl h), Result.ok_bind, finish_pushAll]

/-- Literal bytes are their own spelling. -/
theorem flatMap_encodeByte {bytes : List UInt8} (h : ∀ b ∈ bytes, isLiteral b = true) :
    bytes.flatMap (encodeByte write) = bytes := by
  induction bytes with
  | nil => rfl
  | cons b bs ih =>
    rw [List.flatMap_cons, ih fun c hc => h c (by simp [hc]), encodeByte, if_pos (h b (by simp))]
    rfl

/-- A name of digits reads back although its first digit is escaped. -/
theorem decode_escaped_digit (offset : Nat) (hne : Utf8.encode text ≠ [])
    (hd : (Utf8.encode text).all Byte.isDigit = true) :
    decode read offset (Byte.percent :: 0x33 :: Utf8.encode text) = .ok text := by
  have literal : ∀ b ∈ Utf8.encode text, isLiteral b = true := fun b hb =>
    isLiteral_of_isDigit b (List.all_eq_true.1 hd b hb)
  have hcontrol : ∀ b ∈ Utf8.encode text, Byte.isControl b = false := fun b hb => by
    obtain ⟨-, -, -, -, hcontrol⟩ := ne_of_isLiteral b (literal b hb)
    exact hcontrol
  obtain ⟨d, ds, hds⟩ := List.exists_cons_of_ne_nil hne
  rw [hds] at hd hcontrol literal
  rw [List.all_cons, Bool.and_eq_true] at hd
  obtain ⟨hhi, hlo⟩ := halves_of_isDigit d hd.1
  have first := scan_escape read {} (hcontrol d (by simp)) offset ds
  rw [hhi, hlo] at first
  have others := scan_encode (show false = true → read = true by simp) (Scan.push {} d)
    (fun b hb => hcontrol b (List.mem_cons_of_mem d hb)) (offset + 3)
  rw [flatMap_encodeByte fun b hb => literal b (List.mem_cons_of_mem d hb)] at others
  rw [decode, hds, first, others, Result.ok_bind, ← finish_pushAll offset, hds]
  rfl

/-! ### What a successful scan has read -/

/-- The scan has gone from `s` to `s'` over bytes that spell `new`, and has noted a forbidden byte
if it has passed a control. -/
structure Scan.Reads (s s' : Scan) (new : List UInt8) : Prop where
  bytes : s'.bytes.data.toList = s.bytes.data.toList ++ new
  clean : s'.forbidden = none → s.forbidden = none ∧ ∀ b ∈ new, Byte.isControl b = false

namespace Scan.Reads
variable {s s' s'' : Scan} {new new' : List UInt8}

theorem trans (h : s.Reads s' new) (h' : s'.Reads s'' new') : s.Reads s'' (new ++ new') where
  bytes := by rw [h'.bytes, h.bytes, List.append_assoc]
  clean hs'' := by
    obtain ⟨hs', hnew'⟩ := h'.clean hs''
    obtain ⟨hs, hnew⟩ := h.clean hs'
    refine ⟨hs, fun b hb => ?_⟩
    rcases List.mem_append.1 hb with hb | hb
    exacts [hnew b hb, hnew' b hb]

theorem push {b : UInt8} (s : Scan) (hb : Byte.isControl b = false) : s.Reads (s.push b) [b] where
  bytes := by simp [Scan.push]
  clean h := ⟨h, by simpa using hb⟩

theorem forbid_push (s : Scan) (b : UInt8) (index : Nat) :
    s.Reads ((s.forbid b index).push b) [b] where
  bytes := by simp [Scan.push, Scan.forbid]
  clean h := by simp [Scan.push, Scan.forbid] at h

theorem escaped (s : Scan) (b : UInt8) (index : Nat) : s.Reads (s.escaped b index) [b] := by
  unfold Scan.escaped
  split
  · exact forbid_push s b index
  · exact push s (Bool.eq_false_iff.2 ‹_›)

theorem raw (read : Bool) (s : Scan) (b : UInt8) (index : Nat) :
    ∃ c, s.Reads (s.raw read b index) [c] := by
  unfold Scan.raw
  split
  · exact ⟨_, push s (by decide)⟩
  · split
    · rename_i hb
      have := push (s.ask index) (b := b) (by rw [hb]; decide)
      exact ⟨b, this.bytes, this.clean⟩
    · split
      · exact ⟨b, forbid_push s b index⟩
      · rename_i h
        simp only [Bool.or_eq_true, not_or, Bool.not_eq_true] at h
        exact ⟨b, push s h.2⟩

end Scan.Reads

theorem exists_reads_of_scan {s s' : Scan} {index : Nat} {bytes : List UInt8}
    (h : scan read index s bytes = .ok s') :
    ∃ new, s.Reads s' new ∧ (bytes ≠ [] → new ≠ []) := by
  fun_induction scan read index s bytes with
  | case1 =>
    cases h
    exact ⟨[], ⟨by simp, fun h => ⟨h, by simp⟩⟩, by simp⟩
  | case2 index s rest _ _ _ _ _ _ ih =>
    obtain ⟨new, hnew, -⟩ := ih h
    exact ⟨_, (Scan.Reads.escaped ..).trans hnew, by simp⟩
  | case3 => cases h
  | case4 => cases h
  | case5 index s b rest hb ih =>
    obtain ⟨new, hnew, -⟩ := ih h
    obtain ⟨c, hc⟩ := Scan.Reads.raw read s b index
    exact ⟨_, hc.trans hnew, by simp⟩

variable {offset : Nat} {bytes : List UInt8}

theorem exists_of_decode (h : decode read offset bytes = .ok text) :
    ∃ s, scan read offset {} bytes = .ok s ∧ s.forbidden = none ∧
      Utf8.encode text = s.bytes.data.toList := by
  obtain ⟨s, hs, hfinish⟩ := Result.bind_eq_ok.1 h
  refine ⟨s, hs, ?_⟩
  unfold Scan.finish at hfinish
  split at hfinish
  · cases hfinish
  · rename_i t ht
    split at hfinish
    · cases hfinish
    · cases hfinish
    · cases hfinish
      exact ⟨‹_›, Utf8.encode_of_decode? ht⟩

theorem hasControl_of_decode (h : decode read offset bytes = .ok text) :
    hasControl text = false := by
  obtain ⟨s, hs, hforbidden, htext⟩ := exists_of_decode h
  obtain ⟨new, hnew, -⟩ := exists_reads_of_scan hs
  rw [hasControl, htext, hnew.bytes]
  simpa using (hnew.clean hforbidden).2

theorem ne_empty_of_decode (h : decode read offset bytes = .ok text) (hne : bytes ≠ []) :
    text ≠ "" := by
  obtain ⟨s, hs, -, htext⟩ := exists_of_decode h
  obtain ⟨new, hnew, hne'⟩ := exists_reads_of_scan hs
  rintro rfl
  rw [hnew.bytes, show Utf8.encode "" = [] from rfl] at htext
  exact hne' hne (List.append_eq_nil_iff.1 htext.symm).2

end Percent

end NestedQuery
