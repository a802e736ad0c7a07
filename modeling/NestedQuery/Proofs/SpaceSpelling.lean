import NestedQuery.Proofs.CanonicalKey
import NestedQuery.Proofs.Spaces

/-!
# Writing a space as a `+`

In canonical text `%20` stands for a space and for nothing else: an escaped percent sign is followed
by `25`, and the escape of a first digit by a 3. So to write `+` for a space is to replace `%20`
wherever it stands. `Joins` says so of a piece of text whatever follows it, which makes the pieces
of a query add up (`joins_encodeByte`, `joins_segment`, `joins_pair`): `stringify_joinSpaces`.
-/

namespace NestedQuery

namespace Canonical

/-- The characters with a `+` in place of each `%20`. -/
def joinSpaces : List Char → List Char
  | '%' :: '2' :: '0' :: rest => '+' :: joinSpaces rest
  | c :: rest => c :: joinSpaces rest
  | [] => []

def chars (bytes : List UInt8) : List Char :=
  bytes.map fun b => Char.ofNat b.toNat

/-- Whatever follows, the first bytes turn into the second with a `+` for each `%20`. -/
def Joins (off on : List UInt8) : Prop :=
  ∀ rest, joinSpaces (chars off ++ rest) = chars on ++ joinSpaces rest

theorem joins_nil : Joins [] [] :=
  fun _ => rfl

theorem chars_append (front back : List UInt8) :
    chars (front ++ back) = chars front ++ chars back :=
  List.map_append

theorem Joins.append {off on off' on' : List UInt8} (h : Joins off on) (h' : Joins off' on') :
    Joins (off ++ off') (on ++ on') := by
  intro rest
  rw [chars_append, List.append_assoc, h, h', chars_append, List.append_assoc]

theorem joins_flatMap {α : Type} {f g : α → List UInt8} {l : List α}
    (h : ∀ a ∈ l, Joins (f a) (g a)) : Joins (l.flatMap f) (l.flatMap g) := by
  induction l with
  | nil => exact joins_nil
  | cons a l ih =>
    obtain ⟨ha, hl⟩ := List.forall_mem_cons.1 h
    rw [List.flatMap_cons, List.flatMap_cons]
    exact ha.append (ih hl)

theorem joinSpaces_cons {c : Char} {rest : List Char}
    (h : ∀ later, c = '%' → rest = '2' :: '0' :: later → False) :
    joinSpaces (c :: rest) = c :: joinSpaces rest := by
  rw [joinSpaces]
  exact h

theorem joins_byte {b : UInt8} (h : b ≠ Byte.percent) : Joins [b] [b] := by
  intro rest
  exact joinSpaces_cons fun _ hpercent => absurd (Byte.char_inj.1 hpercent) h

theorem joins_bytes {bytes : List UInt8} (h : ∀ b ∈ bytes, b ≠ Byte.percent) :
    Joins bytes bytes := by
  have hflat := joins_flatMap (f := fun b => [b]) (g := fun b => [b])
    fun b hb => joins_byte (h b hb)
  simpa using hflat

/-- An escape of anything but a space stays. -/
theorem joins_escape {h l : UInt8} (hh : h ≠ Byte.percent) (hl : l ≠ Byte.percent)
    (hspace : h = 0x32 → l ≠ 0x30) : Joins [Byte.percent, h, l] [Byte.percent, h, l] := by
  intro rest
  have hescape : joinSpaces (chars [Byte.percent, h, l] ++ rest) =
      '%' :: joinSpaces (chars [h, l] ++ rest) := by
    refine joinSpaces_cons fun later _ heq => ?_
    obtain ⟨hh, heq⟩ := List.cons.inj heq
    obtain ⟨hl, -⟩ := List.cons.inj heq
    exact hspace (Byte.char_inj.1 hh) (Byte.char_inj.1 hl)
  have hdigits : Joins [h, l] [h, l] := joins_bytes (by simp [hh, hl])
  rw [hescape, hdigits]
  rfl

/-- The two spellings of a byte differ for the space alone. -/
theorem joins_encodeByte (b : UInt8) :
    Joins (Percent.encodeByte false b) (Percent.encodeByte true b) := by
  by_cases hliteral : Percent.isLiteral b = true
  · rw [Percent.encodeByte, Percent.encodeByte, if_pos hliteral, if_pos hliteral]
    exact joins_byte (Percent.ne_of_isLiteral b hliteral).1
  · by_cases hspace : b = Byte.space
    · rw [hspace]
      exact fun rest => rfl
    · obtain ⟨hh, hl, hne⟩ := Byte.forall_of_fin (P := fun b => b ≠ Byte.space →
        Byte.hexDigit (b / 0x10) ≠ Byte.percent ∧ Byte.hexDigit (b % 0x10) ≠ Byte.percent ∧
          (Byte.hexDigit (b / 0x10) = 0x32 → Byte.hexDigit (b % 0x10) ≠ 0x30))
        (by decide +kernel) b hspace
      simp only [Percent.encodeByte, hliteral, hspace, Bool.false_eq_true, if_false,
        decide_false, Bool.false_and]
      exact joins_escape hh hl hne

theorem joins_encode (text : String) :
    Joins (Percent.encode false text) (Percent.encode true text) :=
  joins_flatMap fun b _ => joins_encodeByte b

theorem ne_percent_of_isDigit {b : UInt8} (h : Byte.isDigit b = true) : b ≠ Byte.percent :=
  (Percent.ne_of_isLiteral b (Percent.isLiteral_of_isDigit b h)).1

theorem joins_nameContent (text : String) :
    Joins (nameContent false text) (nameContent true text) := by
  unfold nameContent
  dsimp only
  split
  · rename_i h
    rw [Bool.and_eq_true] at h
    -- the escape of the first digit is `%3` and that digit
    have hescape : Joins [Byte.percent, 0x33] [Byte.percent, 0x33] := by
      intro rest
      have hthree : joinSpaces ('3' :: rest) = '3' :: joinSpaces rest :=
        joinSpaces_cons (by rintro _ ⟨⟩)
      have hpercent : joinSpaces ('%' :: '3' :: rest) = '%' :: joinSpaces ('3' :: rest) :=
        joinSpaces_cons (by rintro _ - ⟨⟩)
      exact hpercent.trans (congrArg _ hthree)
    have hdigits : Joins (Utf8.encode text) (Utf8.encode text) := joins_bytes fun b hb =>
      ne_percent_of_isDigit (List.all_eq_true.1 h.2 b hb)
    exact hescape.append hdigits
  · exact joins_encode text

theorem joins_segment (s : Segment) : Joins (segment false s) (segment true s) := by
  have hcontent : Joins (content false s) (content true s) := by
    cases s with
    | name text => exact joins_nameContent text
    | index n =>
      exact joins_bytes fun b hb =>
        ne_percent_of_isDigit (List.all_eq_true.1 (Byte.all_isDigit_decimal n) b hb)
    | append => exact joins_nil
  rw [segment_eq, segment_eq]
  exact ((joins_byte (b := Byte.openBracket) (by decide)).append hcontent).append
    (joins_byte (by decide))

theorem joins_pair (leaf : KeyPath × String) : Joins (pair false leaf) (pair true leaf) := by
  rw [pair, pair, key, key, encodeName_eq, encodeName_eq]
  refine ((joins_encode _).append (joins_flatMap fun s _ => joins_segment s)).append ?_
  exact (joins_byte (b := Byte.equals) (by decide)).append (joins_encode _)

theorem joins_intercalate (leaves : List (KeyPath × String)) :
    Joins (List.intercalate [Byte.ampersand] (leaves.map (pair false)))
      (List.intercalate [Byte.ampersand] (leaves.map (pair true))) := by
  induction leaves with
  | nil => exact joins_nil
  | cons first others ih =>
    cases others with
    | nil => simpa using joins_pair first
    | cons second others =>
      rw [List.map_cons, List.map_cons, List.map_cons, List.map_cons, List.intercalate_cons_cons,
        List.intercalate_cons_cons]
      exact ((joins_pair first).append (joins_byte (by decide))).append ih

/-- The canonical query with spaces spelled `+` is the other one with a `+` for each `%20`. -/
theorem stringify_joinSpaces (doc : Document) :
    doc.stringify { spaceAsPlus := true } =
      String.ofList (joinSpaces (doc.stringify {}).toList) := by
  have hstringify (config : Config) : doc.stringify config =
      String.ofList (chars (List.intercalate [Byte.ampersand]
        (doc.leaves.map (pair config.spaceAsPlus)))) := by
    rw [← toList_bytes]
    rfl
  have hjoins := joins_intercalate doc.leaves []
  rw [List.append_nil, joinSpaces, List.append_nil] at hjoins
  rw [hstringify, hstringify, String.toList_ofList, hjoins]

end Canonical

/-- To take `+` for a space is substitution, both ways. A reader that does so makes of a query what
the other one makes of it with `%20` in place of each `+`: the same document, or an error of the
same kind. What a writer that does so writes is what the other one writes, with `+` in place of each
`%20`. -/
theorem spaceAsPlus_substitutes :
    (∀ input : List UInt8,
      (Query.parse { spaceAsPlus := true } input).mapError Error.kind =
        (Query.parse {} (Percent.unplus input)).mapError Error.kind) ∧
    ∀ doc : Document, doc.stringify { spaceAsPlus := true } =
      String.ofList (Canonical.joinSpaces (doc.stringify {}).toList) :=
  ⟨Query.kind_parse_unplus, Canonical.stringify_joinSpaces⟩

/-- What spells no space stays as it is, and an error may stand elsewhere. -/
example :
    Document.stringify {} ⟨[("a b", .scalar "%20 ")]⟩ = "a%20b=%2520%20" ∧
      Document.stringify { spaceAsPlus := true } ⟨[("a b", .scalar "%20 ")]⟩ = "a+b=%2520+" ∧
      Query.parse {} (Utf8.encode "a%20b=?") = .error (.unexpectedQuestionMark 6) ∧
      Query.parse { spaceAsPlus := true } (Utf8.encode "a+b=?") =
        .error (.unexpectedQuestionMark 4) := by
  refine ⟨?_, ?_, ?_, ?_⟩ <;> cbv

end NestedQuery
