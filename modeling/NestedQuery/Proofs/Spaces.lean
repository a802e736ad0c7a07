import NestedQuery.Proofs.Strictness

/-!
# Reading a `+` as a space

A reader that takes `+` for a space makes of an input what the other one makes of it with `%20` in
place of each `+` (`unplus`), up to the positions in errors. A `+` and an escaped space stand alike
in no separator, no bracket, no index and no other escape, so the two inputs fall apart in the same
way, from segments and groups (`spellings_unplus`, `Splits.unplus`, `Breaks.unplus`) down to
components (`kind_decode_unplus`): `kind_parse_unplus`.
-/

namespace NestedQuery

namespace Percent

/-- The bytes with `%20` in place of each `+`. -/
def unplus (bytes : List UInt8) : List UInt8 :=
  bytes.flatMap fun b => if b = Byte.plus then [Byte.percent, 0x32, 0x30] else [b]

theorem unplus_plus (rest : List UInt8) :
    unplus (Byte.plus :: rest) = Byte.percent :: 0x32 :: 0x30 :: unplus rest :=
  rfl

theorem unplus_cons {b : UInt8} (h : b ≠ Byte.plus) (rest : List UInt8) :
    unplus (b :: rest) = b :: unplus rest := by
  rw [unplus, List.flatMap_cons, if_neg h]
  rfl

theorem unplus_append (front back : List UInt8) :
    unplus (front ++ back) = unplus front ++ unplus back :=
  List.flatMap_append

theorem isEmpty_unplus (bytes : List UInt8) : (unplus bytes).isEmpty = bytes.isEmpty := by
  cases bytes with
  | nil => rfl
  | cons b rest =>
    by_cases hb : b = Byte.plus
    · rw [hb]
      rfl
    · rw [unplus_cons hb]
      rfl

/-! ### What a component decodes to -/

/-- A `+` is no digit of an escape, nor is the `%` that comes in its place. -/
theorem escape?_unplus (bytes : List UInt8) : escape? (unplus bytes) = escape? bytes := by
  match bytes with
  | [] => rfl
  | [h] =>
    by_cases hh : h = Byte.plus
    · rw [hh]
      rfl
    · rw [unplus_cons hh]
      rfl
  | h :: l :: rest =>
    by_cases hh : h = Byte.plus
    · rw [hh]
      rfl
    · rw [unplus_cons hh]
      by_cases hl : l = Byte.plus
      · rw [hl, unplus_plus]
        have hplus : Byte.hexValue? Byte.plus = none := by decide
        have hpercent : Byte.hexValue? Byte.percent = none := by decide
        simp only [escape?, hplus, hpercent]
      · rw [unplus_cons hl]
        rfl

/-- An escaped space reads as a `+` that is read as a space. -/
theorem unescape_unplus (bytes : List UInt8) :
    unescape (unplus bytes) = unescape (spaces true bytes) := by
  have percent (rest : List UInt8) :
      spaces true (Byte.percent :: rest) = Byte.percent :: spaces true rest :=
    spaces_cons_of_ne (by decide) rest
  have unpercent (rest : List UInt8) :
      unplus (Byte.percent :: rest) = Byte.percent :: unplus rest :=
    unplus_cons (by decide) rest
  fun_induction unescape bytes with
  | case1 => rfl
  | case2 h l rest hi lo hl hh ih =>
    obtain ⟨-, -, -, hh4, -⟩ := plain_of_hexValue? h (by simp [hh])
    obtain ⟨-, -, -, hl4, -⟩ := plain_of_hexValue? l (by simp [hl])
    rw [percent, spaces_cons_of_ne hh4, spaces_cons_of_ne hl4, unescape_escape hh hl, unpercent,
      unplus_cons hh4, unplus_cons hl4, unescape_escape hh hl, ih]
  | case3 h l rest hnone ih =>
    have hescape := escape?_of_not_hex rest hnone
    rw [percent, unescape_of_escape?_eq_none ((escape?_spaces true _).trans hescape), unpercent,
      unescape_of_escape?_eq_none ((escape?_unplus _).trans hescape), ih]
  | case4 rest hshort ih =>
    have hescape := escape?_of_short hshort
    rw [percent, unescape_of_escape?_eq_none ((escape?_spaces true _).trans hescape), unpercent,
      unescape_of_escape?_eq_none ((escape?_unplus _).trans hescape), ih]
  | case5 b rest hb ih =>
    by_cases hplus : b = Byte.plus
    · have hspace : spaces true (Byte.plus :: rest) = Byte.space :: spaces true rest := rfl
      have hescape : unescape (Byte.percent :: 0x32 :: 0x30 :: unplus rest) =
          Byte.space :: unescape (unplus rest) :=
        unescape_escape (by decide : Byte.hexValue? 0x32 = some 2)
          (by decide : Byte.hexValue? 0x30 = some 0) _
      rw [hplus, unplus_plus, hspace, hescape, unescape_cons_of_ne (b := Byte.space) (by decide),
        ih]
    · rw [unplus_cons hplus, spaces_cons_of_ne hplus, unescape_cons_of_ne hb,
        unescape_cons_of_ne hb, ih]

/-- What is found at no `+` and no digit is found in place of a `+` exactly if it was found
before. -/
theorem isSome_first?_unplus {α : Type} {f : List UInt8 → Option α}
    (hplus : ∀ rest, f (Byte.plus :: rest) = none)
    (hescape : ∀ rest, f (Byte.percent :: 0x32 :: 0x30 :: rest) = none)
    (hdigit : ∀ b rest, Byte.isDigit b = true → f (b :: rest) = none)
    (hcons : ∀ b rest, b ≠ Byte.plus → f (b :: unplus rest) = f (b :: rest))
    (index index' : Nat) (bytes : List UInt8) :
    (first? f index' (unplus bytes)).isSome = (first? f index bytes).isSome := by
  induction bytes generalizing index index' with
  | nil => rfl
  | cons b rest ih =>
    by_cases hb : b = Byte.plus
    · rw [hb, unplus_plus, first?_skip index' (hdigit _ _ rfl) (hdigit _ _ rfl), hescape, first?,
        hplus]
      exact ih (index + 1) (index' + 3)
    · rw [unplus_cons hb, first?, first?, hcons b rest hb, Option.isSome_or, Option.isSome_or,
        Option.isSome_map, Option.isSome_map, ih (index + 1) (index' + 1)]

/-- A component with its `+`s read as spaces comes to what it does with spaces in their place. -/
theorem kind_decode_unplus (offset offset' : Nat) (bytes : List UInt8) :
    (decode true offset bytes).mapError Error.kind =
      (decode false offset' (unplus bytes)).mapError Error.kind := by
  have hplain (b : UInt8) : Byte.isDigit b = true →
      b ≠ Byte.percent ∧ b ≠ Byte.questionMark ∧ b ≠ Byte.space ∧ Byte.isControl b = false := by
    intro hb
    obtain ⟨h1, -, h2, h3, h4⟩ := ne_of_isLiteral b (isLiteral_of_isDigit b hb)
    exact ⟨h1, h2, h3, h4⟩
  have hmalformed := isSome_first?_unplus (f := malformed?) (fun rest => rfl) (fun rest => rfl)
    (fun b rest hb => by simp [malformed?, hplain b hb])
    (fun b rest _ => by simp [malformed?, escape?_unplus]) offset offset' bytes
  have hforbidden := isSome_first?_unplus (f := forbidden?) (fun rest => rfl) (fun rest => rfl)
    (fun b rest hb => by simp [forbidden?, hplain b hb])
    (fun b rest _ => by simp [forbidden?, escape?_unplus]) offset offset' bytes
  have hquestion := isSome_first?_unplus (f := question?) (fun rest => rfl) (fun rest => rfl)
    (fun b rest hb => by simp [question?, hplain b hb])
    (fun b rest _ => rfl) offset offset' bytes
  rw [kind_decode, kind_decode, hmalformed, hforbidden, hquestion, ← unescape_unplus]
  rfl

/-! ### Bytes that stay -/

theorem mem_unplus {b : UInt8} {bytes : List UInt8} (h : b ∈ unplus bytes) :
    b ∈ bytes ∨ b ∈ [Byte.percent, 0x32, 0x30] := by
  obtain ⟨c, hc, hb⟩ := List.mem_flatMap.1 h
  split_ifs at hb
  · exact .inr hb
  · rw [List.mem_singleton.1 hb]
    exact .inl hc

theorem unplus_of_digits {digits : List UInt8} (h : digits.all Byte.isDigit = true) :
    unplus digits = digits := by
  induction digits with
  | nil => rfl
  | cons d digits ih =>
    rw [List.all_cons, Bool.and_eq_true] at h
    have hd : d ≠ Byte.plus := by
      rintro rfl
      cases h.1
    rw [unplus_cons hd, ih h.2]

theorem all_isDigit_unplus (bytes : List UInt8) :
    (unplus bytes).all Byte.isDigit = bytes.all Byte.isDigit := by
  induction bytes with
  | nil => rfl
  | cons b rest ih =>
    by_cases hb : b = Byte.plus
    · rw [hb]
      rfl
    · rw [unplus_cons hb, List.all_cons, List.all_cons, ih]

end Percent

open Percent (unplus unplus_cons unplus_plus unplus_append)

/-! ### Keys -/

namespace RawSegment

theorem kind_decode_name (offset offset' position position' : Nat) (content : List UInt8) :
    ((name content position).decode true offset).mapError Error.kind =
      ((name (unplus content) position').decode false offset').mapError Error.kind := by
  rw [decode, decode, Result.mapError_map, Result.mapError_map,
    Percent.kind_decode_unplus _ (offset' + position')]

theorem kind_decode_classify (offset offset' position position' : Nat) (content : List UInt8) :
    ((classify content position).decode true offset).mapError Error.kind =
      ((classify (unplus content) position').decode false offset').mapError Error.kind := by
  have hname := kind_decode_name offset offset' position position' content
  rw [classify, classify, Percent.isEmpty_unplus, Percent.all_isDigit_unplus]
  by_cases hdigits : content.all Byte.isDigit = true
  · rw [Percent.unplus_of_digits hdigits] at hname ⊢
    split_ifs
    exacts [rfl, rfl, hname]
  · simp only [hdigits, Bool.false_and, Bool.false_eq_true, if_false]
    split_ifs
    exacts [rfl, hname]

end RawSegment

namespace RawKeyPath
variable {root content key back : List UInt8} {contents : List (List UInt8)}

theorem bare_unplus (h : Bare content) : Bare (unplus content) := by
  intro b hb
  rcases Percent.mem_unplus hb with hb | hb
  · exact h b hb
  · simp only [List.mem_cons, List.not_mem_nil, or_false] at hb
    rcases hb with rfl | rfl | rfl <;> decide

theorem forall_bare_unplus (h : ∀ c ∈ contents, Bare c) :
    ∀ c ∈ contents.map unplus, Bare c :=
  List.forall_mem_map.2 fun c hc => bare_unplus (h c hc)

theorem unplus_flatMap_group (contents : List (List UInt8)) :
    unplus (contents.flatMap group) = (contents.map unplus).flatMap group := by
  induction contents with
  | nil => rfl
  | cons content contents ih =>
    rw [List.flatMap_cons, unplus_append, ih, List.map_cons, List.flatMap_cons, group,
      unplus_append, unplus_cons (by decide), group]
    rfl

theorem Splits.unplus (h : Splits key root contents) :
    Splits (unplus key) (unplus root) (contents.map unplus) := by
  refine ⟨forall_bare_unplus h.bare, ?_⟩
  rw [h.eq, unplus_append, unplus_flatMap_group]

theorem start_unplus (h : ∀ b ∈ key.head?, Byte.isBracket b = true) :
    ∀ b ∈ (unplus key).head?, Byte.isBracket b = true := by
  cases key with
  | nil => exact nofun
  | cons b key =>
    have hb : b ≠ Byte.plus := by
      rintro rfl
      cases h _ rfl
    rw [unplus_cons hb]
    exact h

theorem Halts.unplus {k : Nat} (h : Halts back k) : ∃ k, Halts (unplus back) k := by
  cases h with
  | @foreign b back hb =>
    by_cases hplus : b = Byte.plus
    · rw [hplus, unplus_plus]
      exact ⟨0, .foreign (by decide)⟩
    · rw [unplus_cons hplus]
      exact ⟨0, .foreign hb⟩
  | unclosed hcontent =>
    rw [unplus_cons (by decide)]
    exact ⟨0, .unclosed (bare_unplus hcontent)⟩
  | nested hcontent =>
    rw [unplus_cons (by decide), unplus_append, unplus_cons (by decide)]
    exact ⟨_, .nested (bare_unplus hcontent)⟩

theorem Breaks.unplus {i : Nat} (h : Breaks key i) : ∃ i, Breaks (unplus key) i := by
  cases h with
  | rootless hstart => exact ⟨0, .rootless (start_unplus hstart)⟩
  | @behind root back contents k hroot hbare hstart hback =>
    obtain ⟨k, hback⟩ := hback.unplus
    have hstart := start_unplus hstart
    rw [unplus_append, unplus_flatMap_group] at hstart
    rw [unplus_append, unplus_append, unplus_flatMap_group]
    refine ⟨_, .behind ?_ (forall_bare_unplus hbare) hstart hback⟩
    rwa [ne_eq, ← List.isEmpty_iff, Percent.isEmpty_unplus, List.isEmpty_iff]

theorem kind_decode_classifyAll (offset offset' position position' : Nat)
    (contents : List (List UInt8)) :
    ((classifyAll position contents).mapM (RawSegment.decode true offset)).mapError Error.kind =
      ((classifyAll position' (contents.map unplus)).mapM
        (RawSegment.decode false offset')).mapError Error.kind := by
  induction contents generalizing position position' with
  | nil => rfl
  | cons content contents ih =>
    rw [List.map_cons, classifyAll, classifyAll, List.mapM_cons, List.mapM_cons,
      Result.mapError_bind, Result.mapError_bind,
      RawSegment.kind_decode_classify _ offset' _ (position' + 1)]
    congr 1
    funext s
    rw [Result.mapError_bind, Result.mapError_bind,
      ih _ (position' + 1 + (unplus content).length + 1)]

end RawKeyPath

namespace Query
variable {offset offset' : Nat}

theorem kind_readKey_unplus (offset offset' : Nat) (key value value' : List UInt8) :
    (Pair.readKey { spaceAsPlus := true } offset ⟨key, value⟩).mapError Error.kind =
      (Pair.readKey {} offset' ⟨unplus key, value'⟩).mapError Error.kind := by
  rw [Pair.readKey, Pair.readKey, KeyPath.tokenize, KeyPath.tokenize]
  cases hraw : RawKeyPath.tokenize key with
  | error i =>
    obtain ⟨i', hbreaks⟩ := (RawKeyPath.tokenize_eq_error_iff.1 hraw).unplus
    rw [RawKeyPath.tokenize_eq_error_iff.2 hbreaks]
    rfl
  | ok raw =>
    obtain ⟨hne, contents, hsplits, hsegments⟩ := RawKeyPath.tokenize_eq_ok_iff.1 hraw
    have hne' : unplus raw.root ≠ [] := by
      rwa [ne_eq, ← List.isEmpty_iff, Percent.isEmpty_unplus, List.isEmpty_iff]
    have hraw' : RawKeyPath.tokenize (unplus key) =
        .ok ⟨unplus raw.root, RawKeyPath.classifyAll (unplus raw.root).length
          (contents.map unplus)⟩ :=
      RawKeyPath.tokenize_eq_ok_iff.2 ⟨hne', _, hsplits.unplus, rfl⟩
    rw [hraw']
    show (raw.decode true offset).mapError Error.kind =
      (RawKeyPath.decode false offset' _).mapError Error.kind
    rw [RawKeyPath.decode, RawKeyPath.decode, Result.mapError_bind, Result.mapError_bind,
      Percent.kind_decode_unplus _ offset', hsegments]
    congr 1
    funext root
    rw [Result.mapError_bind, Result.mapError_bind,
      RawKeyPath.kind_decode_classifyAll _ offset' _ (unplus raw.root).length]

/-! ### Queries -/

theorem cut_unplus (segment : List UInt8) :
    (unplus segment).takeWhile (· != Byte.equals) = unplus (segment.takeWhile (· != Byte.equals)) ∧
      (unplus segment).dropWhile (· != Byte.equals) =
        unplus (segment.dropWhile (· != Byte.equals)) := by
  induction segment with
  | nil => exact ⟨rfl, rfl⟩
  | cons b segment ih =>
    by_cases hplus : b = Byte.plus
    · rw [hplus]
      exact ⟨congrArg (fun rest => Byte.percent :: 0x32 :: 0x30 :: rest) ih.1, ih.2⟩
    · rw [unplus_cons hplus, List.takeWhile_cons, List.takeWhile_cons, List.dropWhile_cons,
        List.dropWhile_cons]
      split_ifs
      · rw [unplus_cons hplus, ih.1, ih.2]
        exact ⟨rfl, rfl⟩
      · rw [unplus_cons hplus]
        exact ⟨rfl, rfl⟩

theorem ofSegment_unplus (segment : List UInt8) :
    Pair.ofSegment (unplus segment) =
      ⟨unplus (Pair.ofSegment segment).key, unplus (Pair.ofSegment segment).value⟩ := by
  obtain ⟨hkey, hrest⟩ := cut_unplus segment
  have hfirst := List.head?_dropWhile_not (· != Byte.equals) segment
  rw [Pair.ofSegment, Pair.ofSegment, hkey, hrest]
  cases hdrop : segment.dropWhile (· != Byte.equals) with
  | nil => rfl
  | cons b value =>
    rw [hdrop] at hfirst
    have hb : b = Byte.equals := by simpa using hfirst
    rw [hb, unplus_cons (by decide)]
    rfl

theorem segments_unplus (bytes : List UInt8) :
    segments (unplus bytes) = (segments bytes).map unplus := by
  induction bytes with
  | nil => rfl
  | cons b bytes ih =>
    simp only [segments, List.map_cons, List.cons.injEq] at ih ⊢
    by_cases hplus : b = Byte.plus
    · simp +decide only [hplus, unplus_plus, split_cons, if_false, ih]
    · rw [unplus_cons hplus, split_cons, split_cons]
      split_ifs with hb
      · exact ⟨rfl, by rw [ih.1, ih.2]; rfl⟩
      · exact ⟨by rw [unplus_cons hplus, ih.1], ih.2⟩

theorem spellings_unplus (input : List UInt8) :
    spellings (unplus input) = (spellings input).map unplus := by
  have hbody : (body (unplus input)).1 = unplus (body input).1 := by
    cases input with
    | nil => rfl
    | cons b rest =>
      by_cases hplus : b = Byte.plus
      · rw [hplus]
        rfl
      · rw [unplus_cons hplus, body, body]
        split_ifs
        · rfl
        · exact (unplus_cons hplus rest).symm
  rw [spellings, hbody, segments_unplus, spellings, List.filter_map]
  congr 1
  refine List.filter_congr fun segment _ => ?_
  rw [Function.comp_apply, Percent.isEmpty_unplus]

theorem kind_readWrite_unplus (offset offset' : Nat) (segment : List UInt8) :
    (readWrite { spaceAsPlus := true } offset segment).mapError Error.kind =
      (readWrite {} offset' (unplus segment)).mapError Error.kind := by
  have hvalue := Percent.kind_decode_unplus
    (offset + (segment.length - (Pair.ofSegment segment).value.length))
    (offset' + ((unplus segment).length - (unplus (Pair.ofSegment segment).value).length))
    (Pair.ofSegment segment).value
  rw [readWrite, readWrite, ofSegment_unplus]
  dsimp only
  rw [Percent.isEmpty_unplus]
  split
  · rw [Result.mapError_bind, Result.mapError_bind, hvalue]
  · rw [Result.mapError_bind, Result.mapError_bind,
      kind_readKey_unplus offset offset' _ _ (unplus (Pair.ofSegment segment).value)]
    congr 1
    funext path
    rw [Result.mapError_bind, Result.mapError_bind, hvalue]

theorem kindStep_unplus (tree : Tree) (segment : List UInt8) :
    kindStep { spaceAsPlus := true } tree segment = kindStep {} tree (unplus segment) := by
  rw [kindStep, kindStep, readPair_eq, readPair_eq, Result.mapError_bind, Result.mapError_bind,
    kind_readWrite_unplus 0 0]

/-- A query with its `+`s read as spaces comes to what it does with `%20` in their place: to the
same document, or to an error of the same kind. -/
theorem kind_parse_unplus (input : List UInt8) :
    (parse { spaceAsPlus := true } input).mapError Error.kind =
      (parse {} (unplus input)).mapError Error.kind := by
  have hon : (parse { spaceAsPlus := true } input).mapError Error.kind =
      Tree.finish <$> (spellings input).foldlM (kindStep { spaceAsPlus := true }) .empty :=
    kind_parse { spaceAsPlus := true } input
  have hoff : (parse {} (unplus input)).mapError Error.kind =
      Tree.finish <$> (spellings (unplus input)).foldlM (kindStep {}) .empty :=
    kind_parse {} (unplus input)
  rw [hon, hoff, spellings_unplus, List.foldlM_map]
  congr 2
  funext tree segment
  exact kindStep_unplus tree segment

end Query

end NestedQuery
