import Mathlib
import NestedQuery.Number.Numeral
import NestedQuery.Proofs.Grammar

/-!
# Where a key stops being grammatical

A key is read just if it is `Grammatical`, and each of its groups is read for its content
(`RawSegment.Reads`). A key that is not read is reported at its `FirstBreak`: the first byte no
grammatical key goes on with (`Viable`), or the bracket that the end of the key leaves open. Such a
position is found by trying every continuation, and `firstBreak_iff_tokenize` says that splitting a
key from left to right, without looking back, finds it.
-/

namespace NestedQuery

namespace RawSegment

/-- The number that a run of decimal digits spells. -/
def number (content : List UInt8) : Nat :=
  Nat.ofDigits 10 (content.map fun b => b.toNat - 48).reverse

theorem decimal_eq_number (content : List UInt8) : Byte.decimal content = number content := by
  rw [Byte.decimal, Numeral.value_eq_sequential, number, Nat.ofDigits_eq_foldr, List.foldr_reverse,
    Numeral.sequential]
  congr 1
  funext n d
  exact Nat.add_comm _ _

/-- What a group is read as if its content stands at a position of the key, and the key at an offset
of the query. -/
inductive Reads (offset : Nat) (content : List UInt8) (position : Nat) (segment : RawSegment) : Prop
  | append (hcontent : content = []) (hsegment : segment = .append)
  | index (hcontent : content ≠ []) (hdigits : ∀ b ∈ content, Byte.isDigit b = true)
      (hfits : number content < 2 ^ 64) (hsegment : segment = .index (number content))
  | name (hcontent : content ≠ [])
      (hother : (∃ b ∈ content, Byte.isDigit b = false) ∨ 2 ^ 64 ≤ number content)
      (hsegment : segment = .name content position)
      (htext : ∀ read, segment.decode read offset =
        .name <$> Percent.decode read (offset + position) content)

theorem reads_classify (offset : Nat) (content : List UInt8) (position : Nat) :
    Reads offset content position (classify content position) := by
  have hbound : indexBound = 2 ^ 64 := rfl
  unfold classify
  rw [decimal_eq_number, hbound]
  split
  · rename_i hempty
    exact .append (List.isEmpty_iff.1 hempty) rfl
  · rename_i hne
    have hcontent : content ≠ [] := by simpa using hne
    split
    · rename_i hindex
      obtain ⟨hdigits, hfits⟩ :
          (∀ b ∈ content, Byte.isDigit b = true) ∧ number content < 2 ^ 64 := by
        simpa using hindex
      exact .index hcontent hdigits hfits rfl
    · rename_i hindex
      refine .name hcontent ?_ rfl fun read => rfl
      by_cases hdigits : ∀ b ∈ content, Byte.isDigit b = true
      · have hall : content.all Byte.isDigit = true := List.all_eq_true.2 hdigits
        refine .inr (Nat.not_lt.1 fun hfits => hindex ?_)
        rw [hall, Bool.true_and]
        exact decide_eq_true hfits
      · push Not at hdigits
        obtain ⟨b, hb, hother⟩ := hdigits
        exact .inl ⟨b, hb, Bool.eq_false_iff.2 hother⟩

end RawSegment

namespace RawKeyPath

/-- A root without brackets that is not empty, and groups behind it. -/
def Grammatical (key : List UInt8) : Prop :=
  ∃ root contents, root ≠ [] ∧ Splits key root contents

/-- Some grammatical key starts so. -/
def Viable (start : List UInt8) : Prop :=
  ∃ rest, Grammatical (start ++ rest)

/-- The position at which a key stops being grammatical. -/
inductive FirstBreak (key : List UInt8) : Nat → Prop
  | empty (hkey : key = []) : FirstBreak key 0
  /-- No grammatical key goes on with the byte. -/
  | byte {i : Nat} (hi : i < key.length) (hviable : Viable (key.take i))
      (hbreak : ¬ Viable (key.take (i + 1))) : FirstBreak key i
  /-- The key ends inside a group. -/
  | opened {front content : List UInt8} (hfront : Grammatical front) (hcontent : Bare content)
      (hkey : key = front ++ Byte.openBracket :: content) : FirstBreak key front.length

theorem exists_tokenize_iff {key : List UInt8} :
    (∃ raw, tokenize key = .ok raw) ↔ Grammatical key := by
  constructor
  · rintro ⟨raw, hraw⟩
    obtain ⟨hne, contents, hsplits, -⟩ := tokenize_eq_ok_iff.1 hraw
    exact ⟨raw.root, contents, hne, hsplits⟩
  · rintro ⟨root, contents, hne, hsplits⟩
    exact ⟨⟨root, classifyAll root.length contents⟩,
      tokenize_eq_ok_iff.2 ⟨hne, contents, hsplits, rfl⟩⟩

theorem Breaks.not_grammatical {key : List UInt8} {i : Nat} (h : Breaks key i) :
    ¬ Grammatical key := by
  intro hkey
  obtain ⟨raw, hraw⟩ := exists_tokenize_iff.2 hkey
  cases hraw.symm.trans (tokenize_eq_error_iff.2 h)

/-! ### Starts of grammatical keys -/

theorem Grammatical.viable {key : List UInt8} (h : Grammatical key) : Viable key :=
  ⟨[], by rwa [List.append_nil]⟩

theorem Viable.of_append {start rest : List UInt8} (h : Viable (start ++ rest)) : Viable start := by
  obtain ⟨later, hkey⟩ := h
  exact ⟨rest ++ later, by rwa [← List.append_assoc]⟩

theorem Viable.take {key : List UInt8} {i j : Nat} (h : Viable (key.take j)) (hij : i ≤ j) :
    Viable (key.take i) := by
  have hcut := List.take_append_drop i (key.take j)
  rw [List.take_take, Nat.min_eq_left hij] at hcut
  rw [← hcut] at h
  exact h.of_append

theorem le_of_not_viable {key : List UInt8} {i j : Nat} (hbreak : ¬ Viable (key.take (i + 1)))
    (h : Viable (key.take j)) : j ≤ i := by
  by_contra hlt
  exact hbreak (h.take (by omega))

theorem viable_nil : Viable [] := by
  have hbare : Bare [0x61] := by
    intro b hb
    rw [List.mem_singleton.1 hb]
    rfl
  exact ⟨[0x61], [0x61], [], List.cons_ne_nil _ _, List.forall_mem_singleton.2 hbare, rfl⟩

theorem Grammatical.group {front content : List UInt8} (hfront : Grammatical front)
    (hcontent : Bare content) : Grammatical (front ++ RawKeyPath.group content) := by
  obtain ⟨root, contents, hne, hsplits⟩ := hfront
  exact ⟨root, contents ++ [content], hne, hsplits.group hcontent⟩

/-- The end of a key may stand in the content of a group. -/
theorem Grammatical.viable_opened {front content : List UInt8} (hfront : Grammatical front)
    (hcontent : Bare content) : Viable (front ++ Byte.openBracket :: content) := by
  refine ⟨[Byte.closeBracket], ?_⟩
  rw [List.append_assoc]
  exact hfront.group hcontent

theorem not_viable_of_breaks {start : List UInt8} {i : Nat}
    (h : ∀ rest, Breaks (start ++ rest) i) : ¬ Viable start := by
  rintro ⟨rest, hkey⟩
  exact (h rest).not_grammatical hkey

theorem FirstBreak.of_append {start : List UInt8} {b : UInt8} (back : List UInt8)
    (hviable : Viable start) (hbreak : ¬ Viable (start ++ [b])) :
    FirstBreak (start ++ b :: back) start.length := by
  have htake : (start ++ b :: back).take start.length = start := List.take_left
  have hnext : (start ++ b :: back).take (start.length + 1) = start ++ [b] := by
    rw [List.take_append, List.take_of_length_le (Nat.le_succ _)]
    simp
  refine .byte ?_ (htake.symm ▸ hviable) (hnext.symm ▸ hbreak)
  simp

/-- A key breaks off where it stops being grammatical. -/
theorem FirstBreak.of_breaks {key : List UInt8} {i : Nat} (h : Breaks key i) :
    FirstBreak key i := by
  cases h with
  | rootless hstart =>
    cases key with
    | nil => exact .empty rfl
    | cons b back =>
      have hbreak : ¬ Viable [b] := not_viable_of_breaks fun rest => .rootless hstart
      exact .of_append back viable_nil hbreak
  | @behind root back contents k hroot hbare hstart hback =>
    have hfront : Grammatical (root ++ contents.flatMap RawKeyPath.group) :=
      ⟨root, contents, hroot, hbare, rfl⟩
    cases hback with
    | @foreign b later hb =>
      have hbreak : ¬ Viable (root ++ contents.flatMap RawKeyPath.group ++ [b]) := by
        apply not_viable_of_breaks
        intro rest
        rw [List.append_assoc]
        refine .behind hroot hbare ?_ (.foreign hb)
        simpa [List.head?_append] using hstart
      exact .of_append later hfront.viable hbreak
    | unclosed hcontent => exact .opened hfront hcontent rfl
    | @nested content later hcontent =>
      -- the group may still be closed in front of the second bracket, but not behind it
      have hviable := hfront.viable_opened hcontent
      have hbreak : ¬ Viable (root ++ contents.flatMap RawKeyPath.group ++
          Byte.openBracket :: content ++ [Byte.openBracket]) := by
        apply not_viable_of_breaks
        intro rest
        rw [List.append_assoc, List.append_assoc]
        refine .behind hroot hbare ?_ (.nested hcontent)
        simpa [List.head?_append] using hstart
      have hfirst := FirstBreak.of_append later hviable hbreak
      rw [List.append_assoc, List.length_append, List.length_cons,
        Nat.add_comm content.length] at hfirst
      exact hfirst

/-- Splitting a key from left to right stops where the key stops being grammatical. -/
theorem firstBreak_iff_tokenize {key : List UInt8} {i : Nat} :
    FirstBreak key i ↔ tokenize key = .error i := by
  constructor
  · intro h
    cases h with
    | empty hkey =>
      subst hkey
      exact tokenize_eq_error_iff.2 (.rootless nofun)
    | opened hfront hcontent hkey =>
      obtain ⟨root, contents, hroot, hbare, rfl⟩ := hfront
      subst hkey
      refine tokenize_eq_error_iff.2 (.behind hroot hbare ?_ (.unclosed hcontent))
      cases contents with
      | nil => rintro _ ⟨⟩; rfl
      | cons => rintro _ ⟨⟩; rfl
    | byte hi hviable hbreak =>
      -- some position is reported, and it can be no other
      cases htokenize : tokenize key with
      | ok raw =>
        have hkey := (exists_tokenize_iff.1 ⟨raw, htokenize⟩).viable
        rw [← List.take_length (l := key)] at hkey
        have hle := le_of_not_viable hbreak hkey
        omega
      | error j =>
        have hj := FirstBreak.of_breaks (tokenize_eq_error_iff.1 htokenize)
        cases hj with
        | empty hkey =>
          rw [hkey] at hi
          cases hi
        | opened hfront hcontent hkey =>
          -- the group that is open could be closed, so nothing breaks in front of the end
          have hviable := hfront.viable_opened hcontent
          rw [← hkey, ← List.take_length (l := key)] at hviable
          have hle := le_of_not_viable hbreak hviable
          omega
        | byte hj hviable' hbreak' =>
          have hle := le_of_not_viable hbreak hviable'
          have hge := le_of_not_viable hbreak' hviable
          rw [Nat.le_antisymm hle hge]
  · intro h
    exact .of_breaks (tokenize_eq_error_iff.1 h)

theorem getElem?_classifyAll (position : Nat) (front : List (List UInt8)) (content : List UInt8)
    (back : List (List UInt8)) :
    (classifyAll position (front ++ content :: back))[front.length]? =
      some (.classify content (position + (front.flatMap group).length + 1)) := by
  induction front generalizing position with
  | nil => rfl
  | cons first front ih =>
    rw [List.cons_append, classifyAll, List.length_cons, List.getElem?_cons_succ, ih,
      List.flatMap_cons, List.length_append, length_group]
    congr 2
    omega

end RawKeyPath

namespace KeyPath

open RawKeyPath

/-- A key is read just if it is grammatical, every group for its content; any other is reported
where it stops being grammatical. -/
theorem tokenize_grammar (offset : Nat) (key : List UInt8) :
    ((∃ raw, tokenize offset key = .ok raw) ↔ Grammatical key) ∧
      (∀ raw, tokenize offset key = .ok raw →
        raw.root ≠ [] ∧ ∃ contents, Splits key raw.root contents ∧
          raw.segments.length = contents.length ∧
          ∀ front content back, contents = front ++ content :: back →
            ∃ segment, raw.segments[front.length]? = some segment ∧
              segment.Reads offset content ((raw.root ++ front.flatMap group).length + 1)) ∧
      ∀ e, tokenize offset key = .error e ↔
        ∃ i, FirstBreak key i ∧ e = .unmatchedBracket (Utf8.lossy key) (offset + i) := by
  have hok {raw : RawKeyPath} :
      tokenize offset key = .ok raw ↔ RawKeyPath.tokenize key = .ok raw := by
    rw [tokenize, Result.mapError_eq_ok]
  have herror {e : Error} : tokenize offset key = .error e ↔
      ∃ i, RawKeyPath.tokenize key = .error i ∧
        e = .unmatchedBracket (Utf8.lossy key) (offset + i) := by
    rw [tokenize, Result.mapError_eq_error]
  refine ⟨?_, fun raw hraw => ?_, fun e => ?_⟩
  · simp only [hok, exists_tokenize_iff]
  · obtain ⟨hne, contents, hsplits, hsegments⟩ := tokenize_eq_ok_iff.1 (hok.1 hraw)
    refine ⟨hne, contents, hsplits, ?_, ?_⟩
    · rw [hsegments, length_classifyAll]
    · rintro front content back rfl
      refine ⟨_, ?_, RawSegment.reads_classify offset content _⟩
      rw [hsegments, getElem?_classifyAll, List.length_append]
  · simp only [herror, firstBreak_iff_tokenize]

/-- A leading zero is a digit like any other, and 2^64 is a name. A key breaks at a nested bracket,
and at an open one if it ends in its group. -/
theorem grammar_of_large_index :
    (tokenize 5 (Utf8.encode "a[07][18446744073709551616][]") =
        .ok ⟨Utf8.encode "a", [.index 7, .name (Utf8.encode "18446744073709551616") 6, .append]⟩ ∧
      ∃ contents, Splits (Utf8.encode "a[07][18446744073709551616][]") (Utf8.encode "a") contents ∧
        contents.length = 3) ∧
      (tokenize 5 (Utf8.encode "a[b[c]") = .error (.unmatchedBracket "a[b[c]" 8) ∧
        FirstBreak (Utf8.encode "a[b[c]") 3) ∧
      tokenize 5 (Utf8.encode "a[b][c") = .error (.unmatchedBracket "a[b][c" 9) ∧
        FirstBreak (Utf8.encode "a[b][c") 4 := by
  have hread : tokenize 5 (Utf8.encode "a[07][18446744073709551616][]") =
      .ok ⟨Utf8.encode "a", [.index 7, .name (Utf8.encode "18446744073709551616") 6, .append]⟩ := by
    cbv
  have hnested : tokenize 5 (Utf8.encode "a[b[c]") = .error (.unmatchedBracket "a[b[c]" 8) := by
    cbv
  have hopen : tokenize 5 (Utf8.encode "a[b][c") = .error (.unmatchedBracket "a[b][c" 9) := by
    cbv
  obtain ⟨-, contents, hsplits, hlen, -⟩ := (tokenize_grammar 5 _).2.1 _ hread
  obtain ⟨i, hi, herror⟩ := ((tokenize_grammar 5 _).2.2 _).1 hnested
  obtain ⟨j, hj, herror'⟩ := ((tokenize_grammar 5 _).2.2 _).1 hopen
  injection herror with _ hposition
  injection herror' with _ hposition'
  rw [show i = 3 by omega] at hi
  rw [show j = 4 by omega] at hj
  exact ⟨⟨hread, contents, hsplits, hlen.symm⟩, ⟨hnested, hi⟩, hopen, hj⟩

end KeyPath

end NestedQuery
