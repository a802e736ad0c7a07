import NestedQuery.Document.Nesting
import NestedQuery.Proofs.Leaves

/-!
# Nesting of documents

`Value.height` counts the levels of lists and maps below a value by recursion on it, and the walk
with a worklist finds the greatest of these (`deepest_le_iff`, `nesting_le_iff`). In a tree without
empty lists and maps the deepest value is a text, so the nesting is the length of the longest path
to one: `nesting_le_iff_leaves`.
-/

namespace NestedQuery

namespace Value

mutual

/-- The number of levels below a value: one for a list or map that is not empty, and those below
its deepest child. -/
def height : Value → Nat
  | .scalar _ => 0
  | .list items => heightItems items
  | .map entries => heightEntries entries

def heightItems : List Value → Nat
  | [] => 0
  | item :: items => max (height item + 1) (heightItems items)

def heightEntries : List (String × Value) → Nat
  | [] => 0
  | (_, value) :: entries => max (height value + 1) (heightEntries entries)

end

theorem heightItems_le_iff {items : List Value} {n : Nat} :
    heightItems items ≤ n ↔ ∀ v ∈ items, v.height + 1 ≤ n := by
  induction items with
  | nil => simp [heightItems]
  | cons v vs ih => rw [heightItems, Nat.max_le, ih, List.forall_mem_cons]

theorem heightEntries_eq (entries : List (String × Value)) :
    heightEntries entries = heightItems (entries.map Prod.snd) := by
  induction entries with
  | nil => rfl
  | cons e es ih => rw [heightEntries, ih, List.map_cons, heightItems]

theorem height_eq (v : Value) : v.height = heightItems v.children := by
  cases v with
  | scalar => rfl
  | list => rfl
  | map entries => exact heightEntries_eq entries

theorem height_le_iff {v : Value} {n : Nat} :
    v.height ≤ n ↔ ∀ c ∈ v.children, c.height + 1 ≤ n := by
  rw [height_eq, heightItems_le_iff]

/-- Some child reaches all the way down. -/
theorem exists_child_of_height_ne_zero {v : Value} (h : v.height ≠ 0) :
    ∃ c ∈ v.children, c.height + 1 = v.height := by
  have hdeep : ¬ ∀ c ∈ v.children, c.height + 1 ≤ v.height - 1 := fun hall => by
    have := height_le_iff.2 hall
    omega
  push Not at hdeep
  obtain ⟨c, hc, hdeep⟩ := hdeep
  have hle := height_le_iff.1 (Nat.le_refl v.height) c hc
  exact ⟨c, hc, by omega⟩

/-- No pending value reaches deeper than its own depth and the levels below it. -/
theorem deepest_le_iff {sofar n : Nat} {pending : List (Value × Nat)} :
    deepest sofar pending ≤ n ↔ sofar ≤ n ∧ ∀ p ∈ pending, p.1.height + p.2 ≤ n := by
  fun_induction deepest sofar pending with
  | case1 => simp
  | case2 sofar v depth pending ih =>
    -- a value is as deep as it stands, or its children, which stand one level further down
    have hv : v.height + depth ≤ n ↔ depth ≤ n ∧ ∀ c ∈ v.children, c.height + (depth + 1) ≤ n := by
      constructor
      · intro h
        refine ⟨by omega, fun c hc => ?_⟩
        have := height_le_iff.1 (Nat.le_refl v.height) c hc
        omega
      · rintro ⟨hdepth, hchildren⟩
        have : v.height ≤ n - depth := height_le_iff.2 fun c hc => by
          have := hchildren c hc
          omega
        omega
    rw [ih, Nat.max_le, List.forall_mem_append, List.forall_mem_map, List.forall_mem_cons, hv]
    tauto

/-! ### Texts at the bottom -/

theorem length_le_height {v : Value} : ∀ leaf ∈ v.leaves, leaf.1.length ≤ v.height := by
  induction v using children_induction with
  | step v ih =>
    have child := height_le_iff.1 (Nat.le_refl v.height)
    intro leaf hleaf
    cases v with
    | scalar text =>
      rw [leaves, List.mem_singleton] at hleaf
      simp [hleaf]
    | list items =>
      obtain ⟨i, hi, l, hl, rfl⟩ := exists_of_mem_leavesItems hleaf
      have hlen := ih _ (List.getElem_mem hi) l hl
      exact Nat.le_trans (Nat.succ_le_succ hlen) (child _ (List.getElem_mem hi))
    | map entries =>
      obtain ⟨e, he, l, hl, rfl⟩ := mem_leavesEntries.1 hleaf
      have hmem : e.2 ∈ (map entries).children := List.mem_map_of_mem he
      exact Nat.le_trans (Nat.succ_le_succ (ih _ hmem l hl)) (child _ hmem)

/-- Without empty lists and maps the deepest value is a text. -/
theorem exists_leaf_of_filled {v : Value} (h : v.Everywhere Filled) :
    ∃ leaf ∈ v.leaves, leaf.1.length = v.height := by
  induction h with
  | @intro v here below ih =>
    by_cases hzero : v.height = 0
    · obtain ⟨leaf, hleaf⟩ := List.exists_mem_of_ne_nil _ (leaves_ne_nil (.intro here below))
      have := length_le_height leaf hleaf
      exact ⟨leaf, hleaf, by omega⟩
    · obtain ⟨c, hc, hheight⟩ := exists_child_of_height_ne_zero hzero
      obtain ⟨leaf, hleaf, hlen⟩ := ih c hc
      obtain ⟨s, hs⟩ := exists_under_of_mem_children hc
      refine ⟨_, hs leaf hleaf, ?_⟩
      simp only [under, List.length_cons, hlen, hheight]

theorem height_le_iff_leaves {v : Value} (h : v.Everywhere Filled) {n : Nat} :
    v.height ≤ n ↔ ∀ leaf ∈ v.leaves, leaf.1.length ≤ n := by
  constructor
  · exact fun hn leaf hleaf => Nat.le_trans (length_le_height leaf hleaf) hn
  · intro hall
    obtain ⟨leaf, hleaf, hlen⟩ := exists_leaf_of_filled h
    exact hlen ▸ hall leaf hleaf

end Value

namespace Document
variable {doc : Document} {n : Nat}

theorem nesting_le_iff : doc.nesting ≤ n ↔ ∀ e ∈ doc.entries, e.2.height ≤ n := by
  rw [nesting, Value.deepest_le_iff, List.forall_mem_map]
  exact ⟨fun h => h.2, fun h => ⟨Nat.zero_le n, h⟩⟩

/-- The nesting of a document without empty lists and maps is the depth of its deepest key path. -/
theorem nesting_le_iff_leaves (filled : ∀ e ∈ doc.entries, e.2.Everywhere Value.Filled) :
    doc.nesting ≤ n ↔ ∀ leaf ∈ doc.leaves, leaf.1.depth ≤ n := by
  rw [nesting_le_iff]
  constructor
  · intro h leaf hleaf
    obtain ⟨e, he, hleaf⟩ := List.mem_flatMap.1 hleaf
    obtain ⟨l, hl, rfl⟩ := List.mem_map.1 hleaf
    exact (Value.height_le_iff_leaves (filled e he)).1 (h e he) l hl
  · intro h e he
    refine (Value.height_le_iff_leaves (filled e he)).2 fun l hl => ?_
    exact h ⟨⟨e.1, l.1⟩, l.2⟩ (List.mem_flatMap.2 ⟨e, he, List.mem_map_of_mem hl⟩)

end Document

end NestedQuery
