import Mathlib.Logic.Relation
import NestedQuery.Proofs.Kinds

/-!
# Spellings without meaning

A `?` in front, separators with nothing between them, the `=` of a pair without a value and a pair
without a key can be added to a query and nothing comes of it. All of them move the pairs behind,
which only shows in the positions of errors. The segments that are not empty stay as they are, or
change in a way that no step of the reading sees (`Respells.foldlM_kindStep`):
`kind_parse_of_neutral`.
-/

namespace NestedQuery

namespace Query
variable {config : Config} {tree : Tree}

/-! ### The segments that are not empty -/

def filled (bytes : List UInt8) : List (List UInt8) :=
  (segments bytes).filter (!·.isEmpty)

theorem filled_append (front back : List UInt8) :
    filled (front ++ Byte.ampersand :: back) = filled front ++ filled back := by
  simp only [filled, segments_eq_splitOn, List.splitOn_append_cons_self, List.filter_append]

theorem filled_eq_singleton {bytes : List UInt8} (hne : bytes ≠ [])
    (h : ∀ b ∈ bytes, b ≠ Byte.ampersand) : filled bytes = [bytes] := by
  have hmem : Byte.ampersand ∉ bytes := fun hmem => h _ hmem rfl
  rw [filled, segments_eq_splitOn, List.splitOn_eq_singleton hmem, List.filter_eq_self,
    List.forall_mem_singleton]
  simpa using hne

theorem filled_intercalate (parts : List (List UInt8)) :
    filled (List.intercalate [Byte.ampersand] parts) = parts.flatMap filled := by
  induction parts with
  | nil => rfl
  | cons first others ih =>
    cases others with
    | nil => simp
    | cons second others =>
      rw [List.intercalate_cons_cons, List.append_assoc, List.singleton_append, filled_append, ih]
      rfl

/-- What stands in front of the segments: a leading `?`, or nothing if they start with no `?`
themselves. -/
def Leads (lead rest : List UInt8) : Prop :=
  lead = [Byte.questionMark] ∨ lead = [] ∧ rest.head? ≠ some Byte.questionMark

theorem spellings_of_leads {lead rest : List UInt8} (h : Leads lead rest) :
    spellings (lead ++ rest) = filled rest := by
  have hbody : (body (lead ++ rest)).1 = rest := by
    rcases h with rfl | ⟨rfl, h⟩
    · rfl
    · cases rest with
      | nil => rfl
      | cons b rest =>
        rw [List.nil_append, body, if_neg fun hb => h (congrArg some hb)]
  rw [spellings, hbody, filled]

/-! ### Additions -/

/-- One addition behind the `?` that may lead a query. -/
inductive Respells (spaceAsPlus : Bool) : List UInt8 → List UInt8 → Prop
  /-- A separator at either end or next to another one. -/
  | ampersand {front back : List UInt8}
      (h : front = [] ∨ back = [] ∨ front.getLast? = some Byte.ampersand ∨
        back.head? = some Byte.ampersand) :
      Respells spaceAsPlus (front ++ back) (front ++ Byte.ampersand :: back)
  /-- The `=` of a pair that has none. -/
  | equals {front back : List (List UInt8)} {pair : List UInt8} (hne : pair ≠ [])
      (hampersand : ∀ b ∈ pair, b ≠ Byte.ampersand) (hequals : ∀ b ∈ pair, b ≠ Byte.equals) :
      Respells spaceAsPlus (List.intercalate [Byte.ampersand] (front ++ pair :: back))
        (List.intercalate [Byte.ampersand] (front ++ (pair ++ [Byte.equals]) :: back))
  /-- A pair without a key whose value can be read, with a separator of its own or in place of an
  empty segment. -/
  | keyless {front gap back : List (List UInt8)} {value : List UInt8} {offset : Nat} {text : String}
      (hgap : gap = [] ∨ gap = [[]]) (hampersand : ∀ b ∈ value, b ≠ Byte.ampersand)
      (hvalue : Percent.decode spaceAsPlus offset value = .ok text) :
      Respells spaceAsPlus (List.intercalate [Byte.ampersand] (front ++ gap ++ back))
        (List.intercalate [Byte.ampersand] (front ++ (Byte.equals :: value) :: back))

/-- One addition to a query. -/
inductive Neutral (spaceAsPlus : Bool) : List UInt8 → List UInt8 → Prop
  | question {query : List UInt8} (h : query.head? ≠ some Byte.questionMark) :
      Neutral spaceAsPlus query (Byte.questionMark :: query)
  | behind {lead rest rest' : List UInt8} (hlead : Leads lead rest)
      (h : Respells spaceAsPlus rest rest') :
      Neutral spaceAsPlus (lead ++ rest) (lead ++ rest')

theorem head?_intercalate_cons (first : List UInt8) (others : List (List UInt8)) :
    (List.intercalate [Byte.ampersand] (first :: others)).head? = some Byte.questionMark ↔
      first.head? = some Byte.questionMark := by
  cases others with
  | nil => rw [List.intercalate_singleton]
  | cons second others =>
    rw [List.intercalate_cons_cons]
    cases first with
    | nil => exact ⟨by rintro ⟨⟩, by rintro ⟨⟩⟩
    | cons => rfl

/-- No addition puts a `?` where it would be taken for a leading one. -/
theorem Respells.leads {spaceAsPlus : Bool} {lead rest rest' : List UInt8}
    (h : Respells spaceAsPlus rest rest') (hlead : Leads lead rest) : Leads lead rest' := by
  refine hlead.imp_right fun ⟨hnil, hhead⟩ => ⟨hnil, fun hquestion => hhead ?_⟩
  cases h with
  | @ampersand front =>
    cases front with
    | nil => cases hquestion
    | cons => exact hquestion
  | @equals front back pair hne =>
    cases front with
    | nil =>
      rw [List.nil_append, head?_intercalate_cons] at hquestion ⊢
      rwa [List.head?_append_of_ne_nil _ hne] at hquestion
    | cons =>
      rw [List.cons_append, head?_intercalate_cons] at hquestion ⊢
      exact hquestion
  | @keyless front =>
    cases front with
    | nil =>
      rw [List.nil_append, head?_intercalate_cons] at hquestion
      cases hquestion
    | cons =>
      rw [List.cons_append, head?_intercalate_cons] at hquestion
      rw [List.cons_append, List.cons_append, head?_intercalate_cons]
      exact hquestion

/-- A separator without a segment of its own parts nothing. -/
theorem filled_ampersand {front back : List UInt8}
    (h : front = [] ∨ back = [] ∨ front.getLast? = some Byte.ampersand ∨
      back.head? = some Byte.ampersand) :
    filled (front ++ Byte.ampersand :: back) = filled (front ++ back) := by
  rcases h with rfl | rfl | h | h
  · rfl
  · rw [filled_append, List.append_nil]
    exact List.append_nil _
  · obtain ⟨front, rfl⟩ := List.getLast?_eq_some_iff.1 h
    rw [List.append_assoc, List.append_assoc, List.singleton_append, List.singleton_append,
      filled_append, filled_append]
    rfl
  · obtain ⟨back, rfl⟩ := List.head?_eq_some_iff.1 h
    rw [filled_append, filled_append]
    rfl

theorem kindStep_equals {pair : List UInt8} (h : ∀ b ∈ pair, b ≠ Byte.equals) :
    kindStep config tree (pair ++ [Byte.equals]) = kindStep config tree pair := by
  rw [kindStep, kindStep, readPair, readPair, Pair.ofSegment_append h,
    Pair.ofSegment_of_forall_ne h]
  rfl

theorem kindStep_keyless {value : List UInt8} {offset : Nat} {text : String}
    (h : Percent.decode config.spaceAsPlus offset value = .ok text) :
    kindStep config tree (Byte.equals :: value) = .ok tree := by
  have hpair : Pair.ofSegment (Byte.equals :: value) = ⟨[], value⟩ := rfl
  rw [kindStep, readPair, hpair]
  dsimp only [List.isEmpty_nil]
  rw [if_pos rfl, Percent.decode_offset h]
  rfl

/-- No step of a run sees an addition. -/
theorem Respells.foldlM_kindStep {rest rest' : List UInt8}
    (h : Respells config.spaceAsPlus rest rest') (tree : Tree) :
    (filled rest').foldlM (kindStep config) tree = (filled rest).foldlM (kindStep config) tree := by
  cases h with
  | ampersand h => rw [filled_ampersand h]
  | @equals front back pair hne hampersand hequals =>
    have hwith : filled (pair ++ [Byte.equals]) = [pair ++ [Byte.equals]] :=
      filled_eq_singleton (by simp)
        (List.forall_mem_append.2 ⟨hampersand, List.forall_mem_singleton.2 (by decide)⟩)
    simp only [filled_intercalate, List.flatMap_append, List.flatMap_cons, List.foldlM_append,
      hwith, filled_eq_singleton hne hampersand, List.singleton_append, List.foldlM_cons,
      kindStep_equals hequals]
  | @keyless front gap back value offset text hgap hampersand hvalue =>
    have hkeyless : filled (Byte.equals :: value) = [Byte.equals :: value] :=
      filled_eq_singleton (by simp) (List.forall_mem_cons.2 ⟨by decide, hampersand⟩)
    have hempty : gap.flatMap filled = [] := by
      rcases hgap with rfl | rfl <;> rfl
    simp only [filled_intercalate, List.flatMap_append, List.flatMap_cons, List.foldlM_append,
      hkeyless, hempty, List.append_nil, List.singleton_append, List.foldlM_cons,
      kindStep_keyless hvalue, Result.ok_bind]

theorem kind_parse_of_neutral {query query' : List UInt8}
    (h : Neutral config.spaceAsPlus query query') :
    (parse config.unlimited query').mapError Error.kind =
      (parse config.unlimited query).mapError Error.kind := by
  rw [kind_parse, kind_parse]
  cases h with
  | question h =>
    have hwith := @spellings_of_leads [Byte.questionMark] query (.inl rfl)
    have hwithout := @spellings_of_leads [] query (.inr ⟨rfl, h⟩)
    exact congrArg _ (congrArg _ (hwith.trans hwithout.symm))
  | behind hlead h =>
    rw [spellings_of_leads hlead, spellings_of_leads (h.leads hlead),
      @Respells.foldlM_kindStep config.unlimited _ _ h]

/-- Without limits, additions to a query change neither its document nor the kind of its error. -/
theorem kind_parse_of_additions (config : Config) {query query' : List UInt8}
    (h : Relation.ReflTransGen (Neutral config.spaceAsPlus) query query') :
    (parse config.unlimited query').mapError Error.kind =
      (parse config.unlimited query).mapError Error.kind := by
  induction h with
  | refl => rfl
  | tail _ hlast ih => exact (kind_parse_of_neutral hlast).trans ih

/-- One addition of each kind. -/
theorem kind_parse_of_additions_each :
    Relation.ReflTransGen (Neutral false) (Utf8.encode "a[]") (Utf8.encode "?&a[]=&=%3F") ∧
      parse {} (Utf8.encode "?&a[]=&=%3F") = .ok ⟨[("a", .list [.scalar ""])]⟩ := by
  have hquestion : Neutral false (Utf8.encode "a[]") (Utf8.encode "?a[]") :=
    .question (by decide)
  have hampersand : Neutral false (Utf8.encode "?a[]") (Utf8.encode "?&a[]") :=
    @Neutral.behind false [Byte.questionMark] _ _ (.inl rfl)
      (@Respells.ampersand false [] (Utf8.encode "a[]") (.inl rfl))
  have hequals : Neutral false (Utf8.encode "?&a[]") (Utf8.encode "?&a[]=") :=
    @Neutral.behind false [Byte.questionMark] _ _ (.inl rfl)
      (@Respells.equals false [[]] [] (Utf8.encode "a[]") (by decide)
        (by decide +kernel) (by decide +kernel))
  have hkeyless : Neutral false (Utf8.encode "?&a[]=") (Utf8.encode "?&a[]=&=%3F") :=
    @Neutral.behind false [Byte.questionMark] _ _ (.inl rfl)
      (@Respells.keyless false [[], Utf8.encode "a[]="] [] [] (Utf8.encode "%3F") 0 "?" (.inl rfl)
        (by decide +kernel) (by cbv))
  have hadditions := Relation.ReflTransGen.refl.tail hquestion |>.tail hampersand |>.tail hequals
    |>.tail hkeyless
  have hread : parse {} (Utf8.encode "a[]") = .ok ⟨[("a", .list [.scalar ""])]⟩ := by cbv
  have hkind := kind_parse_of_additions {} hadditions
  refine ⟨hadditions, Result.mapError_eq_ok.1 (hkind.trans ?_)⟩
  exact Result.mapError_eq_ok.2 hread

end Query

end NestedQuery
