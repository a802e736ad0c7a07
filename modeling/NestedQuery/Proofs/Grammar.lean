import Mathlib.Data.List.TakeWhile
import NestedQuery.KeyPath.Raw
import NestedQuery.Proofs.Result

/-!
# The grammar of raw keys

A key that is read is a root without brackets and a run of groups, each of them bracket-free content
between two brackets (`tokenize_eq_ok_iff`); any other key breaks off behind some of them
(`tokenize_eq_error_iff`), where a byte that breaks the grammar is reported (`stray_of_tokenize`).
`groups_induction` is the induction over such a run, `count_openBracket` counts its groups in the
bytes of the key.
-/

namespace NestedQuery.RawKeyPath

theorem isBracket_of_mem_takeWhile {bytes : List UInt8} :
    ∀ b ∈ bytes.takeWhile (!Byte.isBracket ·), Byte.isBracket b = false := by
  intro b hb
  simpa using List.mem_takeWhile_imp hb

/-- Bytes that do not end before one are cut at their first bracket. -/
theorem cut_at_bracket {bytes rest : List UInt8} {b : UInt8}
    (h : bytes.dropWhile (!Byte.isBracket ·) = b :: rest) :
    Byte.isBracket b = true ∧ bytes.takeWhile (!Byte.isBracket ·) ++ b :: rest = bytes := by
  refine ⟨?_, by rw [← h, List.takeWhile_append_dropWhile]⟩
  have := List.head?_dropWhile_not (!Byte.isBracket ·) bytes
  rw [h] at this
  simpa using this

theorem cut_at_close {bytes rest : List UInt8} {close : UInt8}
    (h : bytes.dropWhile (!Byte.isBracket ·) = close :: rest) (hclose : close ≠ Byte.openBracket) :
    bytes.takeWhile (!Byte.isBracket ·) ++ Byte.closeBracket :: rest = bytes := by
  obtain ⟨hbracket, hcut⟩ := cut_at_bracket h
  have hclose : close = Byte.closeBracket := by
    simpa [Byte.isBracket, hclose] using hbracket
  rwa [hclose] at hcut

/-- The groups that are read stand in the bytes one after another. -/
theorem groups_induction {P : Nat → List UInt8 → List RawSegment → Prop}
    (nil : ∀ position, P position [] [])
    (group : ∀ position content rest raw, (∀ b ∈ content, Byte.isBracket b = false) →
      P (position + 1 + content.length + 1) rest raw →
      P position (Byte.openBracket :: (content ++ Byte.closeBracket :: rest))
        (.classify content (position + 1) :: raw))
    {position : Nat} {bytes : List UInt8} {raw : List RawSegment}
    (h : groups position bytes = .ok raw) : P position bytes raw := by
  fun_induction groups position bytes generalizing raw with
  | case1 position =>
    cases h
    exact nil position
  | case2 | case3 | case4 => cases h
  | case5 =>
    rename_i position b rest hb content close rest' hdrop stop hclose ih
    obtain ⟨raw, hraw, h⟩ := Result.bind_eq_ok.1 h
    cases h
    have hgroup := group position content rest' raw isBracket_of_mem_takeWhile (ih hraw)
    rw [cut_at_close hdrop hclose] at hgroup
    rw [not_not.1 hb]
    exact hgroup

/-! ### Keys of the grammar -/

abbrev Bare (bytes : List UInt8) : Prop :=
  ∀ b ∈ bytes, Byte.isBracket b = false

/-- Content with its brackets. -/
def group (content : List UInt8) : List UInt8 :=
  Byte.openBracket :: content ++ [Byte.closeBracket]

/-- What groups are read as, the first of which starts at `position`. -/
def classifyAll (position : Nat) : List (List UInt8) → List RawSegment
  | [] => []
  | content :: contents =>
    .classify content (position + 1) :: classifyAll (position + 1 + content.length + 1) contents

theorem length_classifyAll (position : Nat) (contents : List (List UInt8)) :
    (classifyAll position contents).length = contents.length := by
  induction contents generalizing position with
  | nil => rfl
  | cons content contents ih => rw [classifyAll, List.length_cons, ih, List.length_cons]

theorem length_group (content : List UInt8) : (group content).length = 1 + content.length + 1 := by
  rw [group, List.length_append, List.length_cons, List.length_singleton,
    Nat.add_comm content.length]

theorem exists_of_mem_classifyAll {position : Nat} {contents : List (List UInt8)} {raw : RawSegment}
    (h : raw ∈ classifyAll position contents) :
    ∃ front content back, contents = front ++ content :: back ∧
      raw = .classify content (position + (front.flatMap group).length + 1) := by
  induction contents generalizing position with
  | nil => cases h
  | cons content contents ih =>
    rcases List.mem_cons.1 h with rfl | h
    · exact ⟨[], content, contents, rfl, rfl⟩
    · obtain ⟨front, later, back, rfl, rfl⟩ := ih h
      refine ⟨content :: front, later, back, rfl, ?_⟩
      rw [List.flatMap_cons, List.length_append, length_group]
      congr 1
      omega

/-- Bytes without brackets, up to one or up to their end, are cut off as a whole. -/
theorem span_bare {content : List UInt8} (rest : List UInt8) (hcontent : Bare content)
    (hrest : ∀ b ∈ rest.head?, Byte.isBracket b = true) :
    (content ++ rest).takeWhile (!Byte.isBracket ·) = content ∧
      (content ++ rest).dropWhile (!Byte.isBracket ·) = rest := by
  have plain : ∀ b ∈ content, (!Byte.isBracket b) = true := fun b hb => by rw [hcontent b hb]; rfl
  have hcut : rest.takeWhile (!Byte.isBracket ·) = [] ∧
      rest.dropWhile (!Byte.isBracket ·) = rest := by
    cases rest with
    | nil => exact ⟨rfl, rfl⟩
    | cons b rest =>
      have hb : (!Byte.isBracket b) = false := by rw [hrest b rfl]; rfl
      exact ⟨List.takeWhile_cons_of_neg (by simp [hb]), List.dropWhile_cons_of_neg (by simp [hb])⟩
  rw [List.takeWhile_append_of_pos plain, List.dropWhile_append_of_pos plain, hcut.1, hcut.2,
    List.append_nil]
  exact ⟨rfl, rfl⟩

/-- A group ends at the first bracket behind its own. -/
theorem groups_of_bracket (position : Nat) {rest rest' : List UInt8} {close : UInt8}
    (hdrop : rest.dropWhile (!Byte.isBracket ·) = close :: rest') :
    groups position (Byte.openBracket :: rest) =
      let content := rest.takeWhile (!Byte.isBracket ·)
      if close = Byte.openBracket then .error (position + 1 + content.length)
      else (RawSegment.classify content (position + 1) :: ·) <$>
        groups (position + 1 + content.length + 1) rest' := by
  rw [groups, if_neg (by simp)]
  dsimp only
  split
  · rename_i hnil
    cases hnil.symm.trans hdrop
  · rename_i hcons
    cases hcons.symm.trans hdrop
    cases groups (position + 1 + (rest.takeWhile (!Byte.isBracket ·)).length + 1) rest' <;> rfl

theorem groups_of_unclosed (position : Nat) {rest : List UInt8}
    (hdrop : rest.dropWhile (!Byte.isBracket ·) = []) :
    groups position (Byte.openBracket :: rest) = .error position := by
  rw [groups, if_neg (by simp)]
  dsimp only
  split
  · rfl
  · rename_i hcons
    cases hcons.symm.trans hdrop

/-- A group with bracket-free content is read as a whole. -/
theorem groups_group (position : Nat) {content : List UInt8} (rest : List UInt8)
    (h : ∀ b ∈ content, Byte.isBracket b = false) :
    groups position (Byte.openBracket :: content ++ Byte.closeBracket :: rest) =
      (RawSegment.classify content (position + 1) :: ·) <$>
        groups (position + 1 + content.length + 1) rest := by
  obtain ⟨htake, hdrop⟩ := span_bare (Byte.closeBracket :: rest) h (by rintro _ ⟨⟩; rfl)
  have hclose : Byte.closeBracket ≠ Byte.openBracket := by decide
  rw [List.cons_append, groups_of_bracket position hdrop, htake]
  exact if_neg hclose

/-- Just the runs of groups are read, each of them for what it is. -/
theorem groups_eq_ok_iff {position : Nat} {bytes : List UInt8} {raw : List RawSegment} :
    groups position bytes = .ok raw ↔
      ∃ contents, (∀ c ∈ contents, Bare c) ∧ bytes = contents.flatMap group ∧
        raw = classifyAll position contents := by
  constructor
  · intro h
    refine groups_induction (P := fun position bytes raw =>
        ∃ contents, (∀ c ∈ contents, Bare c) ∧ bytes = contents.flatMap group ∧
          raw = classifyAll position contents)
      (fun _ => ⟨[], by simp, rfl, rfl⟩) (fun position content rest raw hcontent ih => ?_) h
    obtain ⟨contents, hbare, rfl, rfl⟩ := ih
    refine ⟨content :: contents, List.forall_mem_cons.2 ⟨hcontent, hbare⟩, ?_, rfl⟩
    simp [group]
  · rintro ⟨contents, hbare, rfl, rfl⟩
    induction contents generalizing position with
    | nil => simp [groups, classifyAll]
    | cons content contents ih =>
      obtain ⟨hcontent, hbare⟩ := List.forall_mem_cons.1 hbare
      rw [List.flatMap_cons, group, List.append_assoc, List.singleton_append,
        groups_group position _ hcontent, ih hbare]
      rfl

/-- The bytes are a root without brackets and a run of groups. -/
structure Splits (bytes root : List UInt8) (contents : List (List UInt8)) : Prop where
  bare : ∀ c ∈ root :: contents, Bare c
  eq : bytes = root ++ contents.flatMap group

theorem Splits.group {bytes root content : List UInt8} {contents : List (List UInt8)}
    (h : Splits bytes root contents) (hcontent : Bare content) :
    Splits (bytes ++ RawKeyPath.group content) root (contents ++ [content]) := by
  refine ⟨?_, by rw [h.eq]; simp⟩
  rw [← List.cons_append]
  exact List.forall_mem_append.2 ⟨h.bare, by simpa using hcontent⟩

/-- Just the keys of the grammar are split, at their brackets. -/
theorem tokenize_eq_ok_iff {key : List UInt8} {raw : RawKeyPath} :
    tokenize key = .ok raw ↔
      raw.root ≠ [] ∧ ∃ contents, Splits key raw.root contents ∧
        raw.segments = classifyAll raw.root.length contents := by
  constructor
  · intro h
    rw [tokenize] at h
    split at h
    · cases h
    · rename_i hne
      obtain ⟨segments, hsegments, h⟩ := Result.bind_eq_ok.1 h
      cases h
      obtain ⟨contents, hbare, hrest, hsegments⟩ := groups_eq_ok_iff.1 hsegments
      refine ⟨by simpa using hne, contents, ⟨?_, ?_⟩, hsegments⟩
      · exact List.forall_mem_cons.2 ⟨isBracket_of_mem_takeWhile, hbare⟩
      · rw [← hrest, List.takeWhile_append_dropWhile]
  · obtain ⟨root, segments⟩ := raw
    rintro ⟨hne, contents, ⟨hbare, rfl⟩, hsegments⟩
    dsimp only at hne hbare hsegments ⊢
    subst hsegments
    obtain ⟨hroot, hbare⟩ := List.forall_mem_cons.1 hbare
    -- the groups start with a bracket, so the root ends where they start
    have hstart : ∀ b ∈ (contents.flatMap group).head?, Byte.isBracket b = true := by
      cases contents with
      | nil => exact nofun
      | cons => rintro _ ⟨⟩; rfl
    obtain ⟨htake, hdrop⟩ := span_bare _ hroot hstart
    have hgroups : groups root.length (contents.flatMap group) =
        .ok (classifyAll root.length contents) :=
      groups_eq_ok_iff.2 ⟨contents, hbare, rfl, rfl⟩
    rw [tokenize, htake, hdrop, if_neg (by simpa using hne), hgroups]
    rfl

/-! ### Keys that are not of the grammar -/

/-- A run of groups breaks off in front of the bytes, and the byte to blame stands at a position
in them. -/
inductive Halts : List UInt8 → Nat → Prop
  /-- What comes is no group. -/
  | foreign {b : UInt8} {back : List UInt8} (hb : b ≠ Byte.openBracket) : Halts (b :: back) 0
  /-- A group is never closed. -/
  | unclosed {content : List UInt8} (hcontent : Bare content) :
      Halts (Byte.openBracket :: content) 0
  /-- A `[` stands in the content of a group. -/
  | nested {content back : List UInt8} (hcontent : Bare content) :
      Halts (Byte.openBracket :: (content ++ Byte.openBracket :: back)) (1 + content.length)

theorem groups_of_halts {bytes : List UInt8} {k : Nat} (h : Halts bytes k) (position : Nat) :
    groups position bytes = .error (position + k) := by
  cases h with
  | foreign hb => rw [groups, if_pos hb, Nat.add_zero]
  | @unclosed content hcontent =>
    obtain ⟨-, hdrop⟩ := span_bare [] hcontent (by rintro _ ⟨⟩)
    rw [List.append_nil] at hdrop
    exact groups_of_unclosed position hdrop
  | @nested content back hcontent =>
    obtain ⟨htake, hdrop⟩ := span_bare (Byte.openBracket :: back) hcontent
      (by rintro _ ⟨⟩; rfl)
    rw [groups_of_bracket position hdrop, htake, ← Nat.add_assoc]
    exact if_pos rfl

/-- A run of groups that is not read breaks off behind some of them. -/
theorem groups_eq_error_iff {position : Nat} {bytes : List UInt8} {i : Nat} :
    groups position bytes = .error i ↔
      ∃ (contents : List (List UInt8)) (back : List UInt8) (k : Nat),
        (∀ c ∈ contents, Bare c) ∧ bytes = contents.flatMap group ++ back ∧
          Halts back k ∧ i = position + (contents.flatMap group).length + k := by
  constructor
  · intro h
    fun_induction groups position bytes with
    | case1 => cases h
    | case2 position b rest hb =>
      cases h
      exact ⟨[], b :: rest, 0, by simp, rfl, .foreign hb, rfl⟩
    | case3 position b rest hb hdrop =>
      cases h
      have hcontent : Bare rest := by
        rw [← List.takeWhile_append_dropWhile (p := (!Byte.isBracket ·)) (l := rest), hdrop,
          List.append_nil]
        exact isBracket_of_mem_takeWhile
      exact ⟨[], b :: rest, 0, by simp, rfl, not_not.1 hb ▸ .unclosed hcontent, rfl⟩
    | case4 =>
      rename_i position b rest hb content rest' stop hdrop
      obtain rfl := Except.error.inj h
      obtain ⟨-, hcut⟩ := cut_at_bracket hdrop
      refine ⟨[], b :: rest, 1 + content.length, by simp, rfl, ?_, Nat.add_assoc ..⟩
      rw [not_not.1 hb, ← hcut]
      exact .nested isBracket_of_mem_takeWhile
    | case5 =>
      rename_i position b rest hb content close rest' hdrop stop hclose ih
      have herror : groups (stop + 1) rest' = .error i := by
        rcases Result.bind_eq_error.1 h with h | ⟨segments, -, h⟩
        · exact h
        · cases h
      obtain ⟨contents, back, k, hbare, hback, hhalts, hi⟩ := ih herror
      refine ⟨content :: contents, back, k, ?_, ?_, hhalts, ?_⟩
      · exact List.forall_mem_cons.2 ⟨isBracket_of_mem_takeWhile, hbare⟩
      · rw [not_not.1 hb, ← cut_at_close hdrop hclose, hback]
        simp [group, content]
      · rw [hi, List.flatMap_cons, List.length_append, length_group]
        omega
  · rintro ⟨contents, back, k, hbare, rfl, hhalts, rfl⟩
    induction contents generalizing position with
    | nil => exact groups_of_halts hhalts position
    | cons content contents ih =>
      obtain ⟨hcontent, hbare⟩ := List.forall_mem_cons.1 hbare
      rw [List.flatMap_cons, group, List.append_assoc, List.append_assoc, List.singleton_append,
        groups_group position _ hcontent, ih hbare, Except.map_error]
      congr 1
      simp only [List.length_append, List.length_cons, List.length_nil]
      omega

/-- A key breaks the grammar at a position: it has no root, or the run of groups behind its root
breaks off. -/
inductive Breaks : List UInt8 → Nat → Prop
  | rootless {key : List UInt8} (hstart : ∀ b ∈ key.head?, Byte.isBracket b = true) : Breaks key 0
  | behind {root back : List UInt8} {contents : List (List UInt8)} {k : Nat} (hroot : root ≠ [])
      (hbare : ∀ c ∈ root :: contents, Bare c)
      (hstart : ∀ b ∈ (contents.flatMap group ++ back).head?, Byte.isBracket b = true)
      (hback : Halts back k) :
      Breaks (root ++ contents.flatMap group ++ back) ((root ++ contents.flatMap group).length + k)

/-- Just the keys that break the grammar are not split. -/
theorem tokenize_eq_error_iff {key : List UInt8} {i : Nat} :
    tokenize key = .error i ↔ Breaks key i := by
  constructor
  · intro h
    have hcut : key.takeWhile (!Byte.isBracket ·) ++ key.dropWhile (!Byte.isBracket ·) = key :=
      List.takeWhile_append_dropWhile
    have hhead : ∀ b ∈ (key.dropWhile (!Byte.isBracket ·)).head?, Byte.isBracket b = true := by
      intro b hb
      have hfirst := List.head?_dropWhile_not (!Byte.isBracket ·) key
      rw [Option.mem_def.1 hb] at hfirst
      simpa using hfirst
    rw [tokenize] at h
    split at h
    · rename_i hroot
      cases h
      rw [List.isEmpty_iff.1 hroot, List.nil_append] at hcut
      rw [hcut] at hhead
      exact .rootless hhead
    · rename_i hroot
      rcases Result.bind_eq_error.1 h with h | ⟨segments, -, h⟩
      · obtain ⟨contents, back, k, hbare, hrest, hback, rfl⟩ := groups_eq_error_iff.1 h
        rw [hrest] at hhead
        have hbreaks := Breaks.behind (by simpa using hroot)
          (List.forall_mem_cons.2 ⟨isBracket_of_mem_takeWhile, hbare⟩) hhead hback
        rwa [List.append_assoc, ← hrest, hcut, List.length_append] at hbreaks
      · cases h
  · intro h
    cases h with
    | rootless hstart =>
      have hnil : Bare [] := nofun
      obtain ⟨htake, -⟩ := span_bare key hnil hstart
      rw [tokenize, ← List.nil_append key, htake]
      rfl
    | @behind root back contents k hroot hbare hstart hback =>
      obtain ⟨hrootBare, hbare⟩ := List.forall_mem_cons.1 hbare
      obtain ⟨htake, hdrop⟩ := span_bare _ hrootBare hstart
      have hgroups : groups root.length (contents.flatMap group ++ back) =
          .error (root.length + (contents.flatMap group).length + k) :=
        groups_eq_error_iff.2 ⟨contents, back, k, hbare, rfl, hback, rfl⟩
      rw [List.append_assoc, tokenize, htake, hdrop, if_neg (by simpa using hroot), hgroups,
        List.length_append]
      rfl

/-- Every group in the bytes is closed, and no bracket stands outside of them. -/
def Closed (bytes : List UInt8) : Prop :=
  ∃ root contents, Splits bytes root contents

theorem Bare.closed {bytes : List UInt8} (h : Bare bytes) : Closed bytes :=
  ⟨bytes, [], by simpa using h, by simp⟩

theorem Closed.group {front content : List UInt8} (hfront : Closed front)
    (hcontent : Bare content) : Closed (front ++ RawKeyPath.group content) := by
  obtain ⟨root, contents, hsplits⟩ := hfront
  exact ⟨root, contents ++ [content], hsplits.group hcontent⟩

/-- The byte at a position of a key is one that a key of the grammar does not have there. -/
inductive Stray (key : List UInt8) : Nat → Prop
  /-- A `[` leads the key. -/
  | leading {back : List UInt8} (hkey : key = Byte.openBracket :: back) : Stray key 0
  /-- A `]` closes nothing. -/
  | close {front back : List UInt8} (hfront : Closed front)
      (hkey : key = front ++ Byte.closeBracket :: back) : Stray key front.length
  /-- A `[` is never closed. -/
  | unclosed {front content : List UInt8} (hfront : Closed front) (hcontent : Bare content)
      (hkey : key = front ++ Byte.openBracket :: content) : Stray key front.length
  /-- A `[` stands in the content of a group. -/
  | nested {front content back : List UInt8} (hfront : Closed front) (hcontent : Bare content)
      (hkey : key = front ++ Byte.openBracket :: (content ++ Byte.openBracket :: back)) :
      Stray key (front.length + 1 + content.length)
  /-- Text follows a closed group. -/
  | text {front content back : List UInt8} {b : UInt8} (hfront : Closed front)
      (hcontent : Bare content) (hb : Byte.isBracket b = false)
      (hkey : key = front ++ group content ++ b :: back) :
      Stray key (front ++ group content).length

theorem Stray.lt_length {key : List UInt8} {position : Nat}
    (h : Stray key position) : position < key.length := by
  cases h with
  | leading hkey | close _ hkey | unclosed _ _ hkey | nested _ _ hkey | text _ _ _ hkey =>
    rw [hkey]
    simp only [List.length_append, List.length_cons]
    omega

/-- A key that is not of the grammar is reported with a stray byte in it. -/
theorem stray_of_tokenize {key : List UInt8} {i : Nat} (hne : key ≠ [])
    (h : tokenize key = .error i) : Stray key i := by
  cases tokenize_eq_error_iff.1 h with
  | rootless hstart =>
    obtain ⟨b, back, rfl⟩ := List.exists_cons_of_ne_nil hne
    by_cases hopen : b = Byte.openBracket
    · exact .leading (by rw [hopen])
    · have hclose : b = Byte.closeBracket := by
        simpa [Byte.isBracket, hopen] using hstart b rfl
      have hnil : Closed [] := Bare.closed nofun
      exact .close hnil (by rw [hclose]; rfl)
  | @behind root back contents k hroot hbare hstart hback =>
    have hfront : Closed (root ++ contents.flatMap group) := ⟨root, contents, hbare, rfl⟩
    cases hback with
    | @foreign b later hb =>
      by_cases hclose : b = Byte.closeBracket
      · exact .close hfront (by rw [hclose])
      · have hbracket : Byte.isBracket b = false := by simp [Byte.isBracket, hb, hclose]
        rcases List.eq_nil_or_concat contents with rfl | ⟨before, last, rfl⟩
        · rw [hstart b rfl] at hbracket
          cases hbracket
        · obtain ⟨hrootBare, hbare⟩ := List.forall_mem_cons.1 hbare
          obtain ⟨hbefore, hlast⟩ := List.forall_mem_append.1 (List.concat_eq_append ▸ hbare)
          have hclosed : Closed (root ++ before.flatMap group) :=
            ⟨root, before, List.forall_mem_cons.2 ⟨hrootBare, hbefore⟩, rfl⟩
          have hcut : root ++ (before.concat last).flatMap group =
              root ++ before.flatMap group ++ group last := by
            simp
          rw [hcut, Nat.add_zero]
          exact .text hclosed (hlast last (List.mem_singleton_self _)) hbracket rfl
    | unclosed hcontent => exact .unclosed hfront hcontent rfl
    | nested hcontent =>
      rw [← Nat.add_assoc]
      exact .nested hfront hcontent rfl

/-! ### The number of groups -/

theorem count_openBracket_eq_zero {bytes : List UInt8}
    (h : ∀ b ∈ bytes, Byte.isBracket b = false) : bytes.count Byte.openBracket = 0 := by
  refine List.count_eq_zero.2 fun hmem => ?_
  have := h _ hmem
  simp [Byte.isBracket] at this

theorem count_openBracket_flatMap_group {contents : List (List UInt8)}
    (h : ∀ c ∈ contents, Bare c) :
    (contents.flatMap group).count Byte.openBracket = contents.length := by
  induction contents with
  | nil => rfl
  | cons content contents ih =>
    obtain ⟨hcontent, hcontents⟩ := List.forall_mem_cons.1 h
    rw [List.flatMap_cons, List.count_append, ih hcontents, group, List.cons_append,
      List.count_cons_self, List.count_append, count_openBracket_eq_zero hcontent, List.length_cons]
    have hclose : [Byte.closeBracket].count Byte.openBracket = 0 := rfl
    omega

/-- A key has as many groups as opening brackets. -/
theorem count_openBracket {key : List UInt8} {raw : RawKeyPath} (h : tokenize key = .ok raw) :
    key.count Byte.openBracket = raw.segments.length := by
  obtain ⟨-, contents, ⟨hbare, rfl⟩, hsegments⟩ := tokenize_eq_ok_iff.1 h
  obtain ⟨hroot, hcontents⟩ := List.forall_mem_cons.1 hbare
  rw [hsegments, length_classifyAll, List.count_append, count_openBracket_eq_zero hroot,
    count_openBracket_flatMap_group hcontents, Nat.zero_add]

theorem length_of_decode {raw : RawKeyPath} {read : Bool} {offset : Nat} {path : KeyPath}
    (h : raw.decode read offset = .ok path) : path.segments.length = raw.segments.length := by
  obtain ⟨root, -, h⟩ := Result.bind_eq_ok.1 h
  obtain ⟨segments, hsegments, h⟩ := Result.bind_eq_ok.1 h
  cases h
  exact (Result.mapM_eq_ok.1 hsegments).length_eq.symm

end NestedQuery.RawKeyPath
