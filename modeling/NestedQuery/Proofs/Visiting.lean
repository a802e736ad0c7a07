import Mathlib.Order.Bounds.Basic
import NestedQuery.Proofs.Nesting
import NestedQuery.Schema.Read

/-!
# Reading documents as they are

A reader that takes any value as it is goes through a whole document and leaves nothing out
(`readAny_eq`, `ofDocument_injective`). The walk that guards it measures how many levels of lists
and maps are around the deepest value, whichever value it looks at first (`nesting_eq_depth`,
`isGreatest_depth`), so a document is refused exactly if it holds a value that is too deep:
`read_any`.
-/

namespace NestedQuery

namespace Schema

mutual

theorem readAny_eq : ∀ v : Value, readAny v = .ok (.ofValue v)
  | .scalar _ => rfl
  | .list items => by
    rw [readAny, readAnyItems_eq items]
    rfl
  | .map entries => by
    rw [readAny, readAnyEntries_eq entries]
    rfl

theorem readAnyItems_eq : ∀ items : List Value, readAnyItems items = .ok (Data.ofItems items)
  | [] => rfl
  | item :: items => by
    rw [readAnyItems, readAny_eq item, readAnyItems_eq items]
    rfl

theorem readAnyEntries_eq : ∀ entries : List (String × Value),
    readAnyEntries entries = .ok (Data.ofEntries entries)
  | [] => rfl
  | (key, value) :: entries => by
    rw [readAnyEntries, readAny_eq value, readAnyEntries_eq entries]
    rfl

end

end Schema

namespace Data

mutual

/-- A value can be told from the data that it is. -/
theorem ofValue_injective : ∀ {v w : Value}, ofValue v = ofValue w → v = w
  | .scalar _, .scalar _, h => by
    cases h
    rfl
  | .list _, .list _, h => congrArg Value.list (ofItems_injective (Data.seq.inj h))
  | .map _, .map _, h => congrArg Value.map (ofEntries_injective (Data.map.inj h))
  | .scalar _, .list _, h | .scalar _, .map _, h | .list _, .scalar _, h | .list _, .map _, h
  | .map _, .scalar _, h | .map _, .list _, h => by cases h

theorem ofItems_injective : ∀ {vs ws : List Value}, ofItems vs = ofItems ws → vs = ws
  | [], [], _ => rfl
  | v :: vs, w :: ws, h => by
    obtain ⟨hitem, hitems⟩ := List.cons.inj h
    rw [ofValue_injective hitem, ofItems_injective hitems]
  | [], _ :: _, h | _ :: _, [], h => by cases h

theorem ofEntries_injective : ∀ {vs ws : List (String × Value)},
    ofEntries vs = ofEntries ws → vs = ws
  | [], [], _ => rfl
  | (key, v) :: vs, (other, w) :: ws, h => by
    obtain ⟨hentry, hentries⟩ := List.cons.inj h
    obtain ⟨hkey, hvalue⟩ := Prod.mk.inj hentry
    rw [Data.text.inj hkey, ofValue_injective hvalue, ofEntries_injective hentries]
  | [], _ :: _, h | _ :: _, [], h => by cases h

end

theorem ofDocument_injective {doc doc' : Document} (h : ofDocument doc = ofDocument doc') :
    doc = doc' :=
  congrArg Document.mk (ofEntries_injective (Data.map.inj h))

end Data

namespace Value
variable {n : Nat} {v w : Value}

/-- The last value lies so many levels of lists and maps below the first. -/
inductive Below : Nat → Value → Value → Prop
  | here (v : Value) : Below 0 v v
  | child {n : Nat} {v c w : Value} (hc : c ∈ v.children) (h : Below n c w) : Below (n + 1) v w

theorem Below.le_height (h : Below n v w) : n ≤ v.height := by
  induction h with
  | here v => exact Nat.zero_le _
  | @child n v c w hc _ ih =>
    have hheight := height_le_iff.1 (Nat.le_refl v.height) c hc
    omega

theorem exists_below_height (v : Value) : ∃ w, Below v.height v w := by
  induction v using children_induction with
  | step v ih =>
    by_cases hzero : v.height = 0
    · exact ⟨v, hzero ▸ .here v⟩
    · obtain ⟨c, hc, hheight⟩ := exists_child_of_height_ne_zero hzero
      obtain ⟨w, hw⟩ := ih c hc
      exact ⟨w, hheight ▸ .child hc hw⟩

end Value

namespace Document
variable {doc : Document} {n : Nat} {w : Value}

/-- The document holds a value that lies so many levels below the value of an entry. -/
def Holds (doc : Document) (n : Nat) (w : Value) : Prop :=
  ∃ e ∈ doc.entries, e.2.Below n w

/-- The greatest height of the values of a document. -/
def depth (doc : Document) : Nat :=
  doc.entries.foldr (fun e depth => max e.2.height depth) 0

theorem depth_le_iff : doc.depth ≤ n ↔ ∀ e ∈ doc.entries, e.2.height ≤ n := by
  unfold depth
  induction doc.entries with
  | nil => simp
  | cons e entries ih => rw [List.foldr_cons, Nat.max_le, ih, List.forall_mem_cons]

/-- The walk finds the depth that recursion on the values gives. -/
theorem nesting_eq_depth (doc : Document) : doc.nesting = doc.depth :=
  eq_of_forall_ge_iff fun _ => nesting_le_iff.trans depth_le_iff.symm

theorem Holds.le_depth (h : doc.Holds n w) : n ≤ doc.depth := by
  obtain ⟨e, he, hbelow⟩ := h
  exact hbelow.le_height.trans (depth_le_iff.1 (Nat.le_refl _) e he)

theorem depth_le_iff_holds : doc.depth ≤ n ↔ ∀ m w, doc.Holds m w → m ≤ n := by
  constructor
  · exact fun h m w hw => hw.le_depth.trans h
  · intro h
    refine depth_le_iff.2 fun e he => ?_
    obtain ⟨w, hw⟩ := e.2.exists_below_height
    exact h _ w ⟨e, he, hw⟩

/-- The depth is the greatest number of levels around a value, if there is one. -/
theorem isGreatest_depth (h : doc.Holds n w) : IsGreatest {m | ∃ w, doc.Holds m w} doc.depth := by
  refine ⟨?_, fun m ⟨_, hm⟩ => hm.le_depth⟩
  by_contra hnone
  -- else the values would all be less deep, and the depth would be less than it is
  have hlt (m : Nat) (w : Value) (hw : doc.Holds m w) : m < doc.depth :=
    lt_of_le_of_ne hw.le_depth fun heq => hnone ⟨w, heq ▸ hw⟩
  have hle : doc.depth ≤ doc.depth - 1 :=
    depth_le_iff_holds.2 fun m w hw => Nat.le_sub_one_of_lt (hlt m w hw)
  have hpos := hlt n w h
  omega

/-- A reader that takes any value as it is reads a document as all that it holds, in order. Unless
it reads without a guard, it refuses a document with a value below more than 128 levels, whatever
it looks for, and reports the greatest number of levels. -/
theorem read_any (doc : Document) :
    doc.readUnbounded .any = .ok (.ofDocument doc) ∧
    (∀ doc', Data.ofDocument doc' = Data.ofDocument doc → doc' = doc) ∧
    doc.nesting = doc.depth ∧
    ((∀ n w, doc.Holds n w → n ≤ 128) → doc.read .any = .ok (.ofDocument doc)) ∧
    ∀ n w, doc.Holds n w → 128 < n →
      IsGreatest {m | ∃ w, doc.Holds m w} doc.depth ∧
        (Error.misfit (.tooNested doc.depth 128)).kind = .custom ∧
        ∀ schema, doc.read schema = .error (.misfit (.tooNested doc.depth 128)) := by
  have hany : doc.readUnbounded .any = .ok (.ofDocument doc) :=
    Schema.readAny_eq (.map doc.entries)
  refine ⟨hany, fun doc' h => Data.ofDocument_injective h, nesting_eq_depth doc, fun h => ?_,
    fun n w hw hn => ⟨isGreatest_depth hw, rfl, fun schema => ?_⟩⟩
  · rw [read, maxNesting, nesting_eq_depth, if_neg (Nat.not_lt.2 (depth_le_iff_holds.2 h)), hany]
  · rw [read, maxNesting, nesting_eq_depth, if_pos (lt_of_lt_of_le hn hw.le_depth)]

/-- An empty map lies within 128 lists and is read, and within one more it is not. -/
theorem read_any_of_empty_map :
    let nested (n : Nat) : Document := ⟨[("a", (fun v => .list [v])^[n] (.map []))]⟩
    (nested 128).read .any = .ok (.ofDocument (nested 128)) ∧
      ∀ schema, (nested 129).read schema = .error (.misfit (.tooNested 129 128)) := by
  intro nested
  have hlast : (nested 128).depth = 128 := by decide +kernel
  have hfirst : (nested 129).depth = 129 := by decide +kernel
  obtain ⟨w, hw⟩ := ((fun v => Value.list [v])^[129] (.map [])).exists_below_height
  have hheight : ((fun v => Value.list [v])^[129] (.map [])).height = 129 := by decide +kernel
  rw [hheight] at hw
  have hholds : (nested 129).Holds 129 w := ⟨_, List.mem_singleton_self _, hw⟩
  refine ⟨(read_any (nested 128)).2.2.2.1 (depth_le_iff_holds.1 hlast.le), fun schema => ?_⟩
  obtain ⟨-, -, hread⟩ := (read_any (nested 129)).2.2.2.2 129 w hholds (by decide)
  rw [hread, hfirst]

end Document

end NestedQuery
