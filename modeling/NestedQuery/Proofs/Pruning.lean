import Mathlib.Data.List.Induction
import NestedQuery.Proofs.Leaves

/-!
# Pruned documents

`prune` takes every value that holds no text out of a tree. What is left has no empty list and no
empty map (`filled_prune`), and the same texts under the same names (`exists_mem_leaves_prune`).
`Dense` trees keep the hollow items of a list behind the others, so that pruning renumbers nothing:
`leaves_prune`, and for the converse `dense_of_leaves_subset`.
-/

namespace NestedQuery

namespace Value

mutual

/-- The value without the hollow lists and maps below it. -/
def prune : Value → Value
  | .scalar text => .scalar text
  | .list items => .list (pruneItems items)
  | .map entries => .map (pruneEntries entries)

def pruneItems : List Value → List Value
  | [] => []
  | item :: items => if item.isHollow then pruneItems items else prune item :: pruneItems items

def pruneEntries : List (String × Value) → List (String × Value)
  | [] => []
  | (key, value) :: entries =>
    if value.isHollow then pruneEntries entries else (key, prune value) :: pruneEntries entries

end

/-- The items of a list that hold no text come after those that hold one. -/
def Dense : Value → Prop
  | .list items => items.Pairwise fun a b => b.isHollow = false → a.isHollow = false
  | _ => True

end Value

/-- The document without the lists and maps that hold no text. -/
def Document.prune (doc : Document) : Document :=
  ⟨Value.pruneEntries doc.entries⟩

namespace Value

variable {items : List Value} {entries : List (String × Value)}

/-! ### What pruning keeps -/

theorem pruneItems_eq (items : List Value) :
    pruneItems items = (items.filter (!·.isHollow)).map prune := by
  induction items with
  | nil => rfl
  | cons v vs ih => cases h : v.isHollow <;> simp [pruneItems, ih, h]

theorem length_pruneItems_le (items : List Value) : (pruneItems items).length ≤ items.length := by
  rw [pruneItems_eq, List.length_map]
  exact List.length_filter_le ..

theorem pruneEntries_eq (entries : List (String × Value)) :
    pruneEntries entries =
      (entries.filter (!·.2.isHollow)).map fun entry => (entry.1, entry.2.prune) := by
  induction entries with
  | nil => rfl
  | cons e es ih => cases h : e.2.isHollow <;> simp [pruneEntries, ih, h]

theorem mem_pruneItems_of_mem {v : Value} (hv : v ∈ items) (hfull : v.isHollow = false) :
    v.prune ∈ pruneItems items := by
  rw [pruneItems_eq]
  exact List.mem_map_of_mem (List.mem_filter.2 ⟨hv, by rw [hfull]; rfl⟩)

theorem mem_pruneEntries_of_mem {e : String × Value} (he : e ∈ entries)
    (hfull : e.2.isHollow = false) : (e.1, e.2.prune) ∈ pruneEntries entries := by
  rw [pruneEntries_eq]
  exact List.mem_map.2 ⟨e, List.mem_filter.2 ⟨he, by rw [hfull]; rfl⟩, rfl⟩

theorem children_prune (v : Value) :
    v.prune.children = (v.children.filter (!·.isHollow)).map prune := by
  cases v with
  | scalar => rfl
  | list items => exact pruneItems_eq items
  | map entries =>
    rw [prune, children, children, pruneEntries_eq, List.map_map, List.filter_map, List.map_map]
    rfl

theorem mem_children_prune {v c : Value} :
    c ∈ v.prune.children ↔ ∃ w ∈ v.children, w.isHollow = false ∧ w.prune = c := by
  simp [children_prune, and_assoc]

theorem filled_prune {v : Value} (h : v.isHollow = false) : v.prune.Everywhere Filled := by
  induction v using children_induction with
  | step v ih =>
    refine .intro ?_ fun c hc => ?_
    · rcases exists_child_of_isHollow h with hscalar | ⟨w, hw, hfull⟩
      · cases v with
        | scalar => exact .inl rfl
        | list | map => cases hscalar
      · exact .inr (List.ne_nil_of_mem (mem_children_prune.2 ⟨w, hw, hfull, rfl⟩))
    · obtain ⟨w, hw, hfull, rfl⟩ := mem_children_prune.1 hc
      exact ih w hw hfull

theorem regular_prune {v : Value} (h : v.Everywhere Regular) : v.prune.Everywhere Regular := by
  induction h with
  | @intro v here _ ih =>
    refine .intro ⟨?_, ?_⟩ fun c hc => ?_
    · cases v with
      | scalar | list => simp [prune]
      | map entries =>
        rw [prune, distinct_map, Entries.keys, pruneEntries_eq, List.map_map]
        exact List.Nodup.sublist ((List.filter_sublist ..).map _) here.distinct
    · cases v with
      | scalar | map => simp [prune]
      | list items =>
        rw [prune, bounded_list]
        exact Nat.le_trans (length_pruneItems_le items) (bounded_list.1 here.bounded)
    · obtain ⟨w, hw, -, rfl⟩ := mem_children_prune.1 hc
      exact ih w hw

theorem isHollow_of_filled {v : Value} (h : v.Everywhere Filled) : v.isHollow = false :=
  isHollow_eq_false_iff.2 (leaves_ne_nil h)

theorem pruneItems_eq_self (hfull : ∀ v ∈ items, v.isHollow = false)
    (h : ∀ v ∈ items, v.prune = v) : pruneItems items = items := by
  have hfilter : items.filter (!·.isHollow) = items :=
    List.filter_eq_self.2 fun v hv => by simp [hfull v hv]
  rw [pruneItems_eq, hfilter, List.map_congr_left h, List.map_id']

theorem pruneEntries_eq_self (hfull : ∀ e ∈ entries, e.2.isHollow = false)
    (h : ∀ e ∈ entries, e.2.prune = e.2) : pruneEntries entries = entries := by
  have hfilter : entries.filter (!·.2.isHollow) = entries :=
    List.filter_eq_self.2 fun e he => by simp [hfull e he]
  have hentry : ∀ e ∈ entries, (e.1, e.2.prune) = e := fun e he => by rw [h e he]
  rw [pruneEntries_eq, hfilter, List.map_congr_left hentry, List.map_id']

/-- There is nothing to prune where no list and no map is empty. -/
theorem prune_eq_self {v : Value} (h : v.Everywhere Filled) : v.prune = v := by
  induction h with
  | @intro v _ below ih =>
    cases v with
    | scalar => rfl
    | list items =>
      have hfull : ∀ v ∈ items, v.isHollow = false := fun v hv => isHollow_of_filled (below v hv)
      rw [prune, pruneItems_eq_self hfull ih]
    | map entries =>
      have hfull : ∀ e ∈ entries, e.2.isHollow = false := fun e he =>
        isHollow_of_filled (below e.2 (List.mem_map_of_mem he))
      rw [prune, pruneEntries_eq_self hfull fun e he => ih e.2 (List.mem_map_of_mem he)]

/-- Where no list and no map is empty, no item is hollow. -/
theorem dense_of_filled {v : Value} (h : v.Everywhere Filled) : v.Everywhere Dense := by
  induction h with
  | @intro v _ below ih =>
    refine .intro ?_ ih
    cases v with
    | list items =>
      exact List.pairwise_of_forall_mem_list fun a ha _ _ _ => isHollow_of_filled (below a ha)
    | scalar | map => trivial

/-- Every text is left, under the same names. -/
theorem exists_mem_leaves_prune (v : Value) : ∀ leaf ∈ v.leaves, ∃ left ∈ v.prune.leaves,
    left.2 = leaf.2 ∧ ∀ key, .name key ∈ leaf.1 → .name key ∈ left.1 := by
  induction v using children_induction with
  | step v ih =>
    intro leaf hleaf
    cases v with
    | scalar => exact ⟨leaf, hleaf, rfl, fun _ hkey => hkey⟩
    | list items =>
      obtain ⟨i, hi, l, hl, rfl⟩ := exists_of_mem_leavesItems hleaf
      obtain ⟨left, hleft, htext, hname⟩ := ih _ (List.getElem_mem hi) l hl
      have hfull := isHollow_eq_false_iff.2 (List.ne_nil_of_mem hl)
      obtain ⟨j, hj, heq⟩ :=
        List.getElem_of_mem (mem_pruneItems_of_mem (List.getElem_mem hi) hfull)
      rw [← heq] at hleft
      refine ⟨_, mem_leavesItems hj hleft, htext, fun key hkey => ?_⟩
      rcases List.mem_cons.1 hkey with hkey | hkey
      · cases hkey
      · exact List.mem_cons_of_mem _ (hname key hkey)
    | map entries =>
      obtain ⟨e, he, l, hl, rfl⟩ := mem_leavesEntries.1 hleaf
      obtain ⟨left, hleft, htext, hname⟩ := ih _ (List.mem_map_of_mem he) l hl
      have hfull := isHollow_eq_false_iff.2 (List.ne_nil_of_mem hl)
      have hentry := mem_pruneEntries_of_mem he hfull
      refine ⟨_, mem_leavesEntries.2 ⟨_, hentry, left, hleft, rfl⟩, htext, fun key hkey => ?_⟩
      rcases List.mem_cons.1 hkey with hkey | hkey
      · exact List.mem_cons.2 (.inl hkey)
      · exact List.mem_cons_of_mem _ (hname key hkey)

/-! ### Texts in their places -/

/-- A dense list starts with the items that hold a text. -/
theorem exists_front_of_dense (dense : Dense (.list items)) :
    ∃ front back, items = front ++ back ∧ (∀ v ∈ front, v.isHollow = false) ∧
      ∀ v ∈ back, v.isHollow = true := by
  induction items with
  | nil => exact ⟨[], [], rfl, by simp, by simp⟩
  | cons v vs ih =>
    obtain ⟨hv, hvs⟩ := List.pairwise_cons.1 dense
    cases hollow : v.isHollow with
    | false =>
      obtain ⟨front, back, rfl, hfront, hback⟩ := ih hvs
      exact ⟨v :: front, back, rfl, List.forall_mem_cons.2 ⟨hollow, hfront⟩, hback⟩
    | true =>
      refine ⟨[], v :: vs, rfl, by simp, List.forall_mem_cons.2 ⟨hollow, fun w hw => ?_⟩⟩
      by_contra hw'
      rw [hv w hw (Bool.eq_false_iff.2 hw')] at hollow
      cases hollow

theorem pruneItems_append {front back : List Value} (hfront : ∀ v ∈ front, v.isHollow = false)
    (hback : ∀ v ∈ back, v.isHollow = true) : pruneItems (front ++ back) = front.map prune := by
  have hf : front.filter (!·.isHollow) = front :=
    List.filter_eq_self.2 fun v hv => by simp [hfront v hv]
  have hb : back.filter (!·.isHollow) = [] :=
    List.filter_eq_nil_iff.2 fun v hv => by simp [hback v hv]
  rw [pruneItems_eq, List.filter_append, hf, hb, List.append_nil]

theorem leavesItems_append (n : Nat) (front back : List Value) :
    leavesItems n (front ++ back) =
      leavesItems n front ++ leavesItems (n + front.length) back := by
  induction front generalizing n with
  | nil => rfl
  | cons v vs ih =>
    rw [List.cons_append, leavesItems, leavesItems, ih, List.append_assoc, List.length_cons,
      Nat.add_assoc, Nat.add_comm 1]

theorem leavesItems_map_prune (n : Nat) (ih : ∀ v ∈ items, v.prune.leaves = v.leaves) :
    leavesItems n (items.map prune) = leavesItems n items := by
  induction items generalizing n with
  | nil => rfl
  | cons v vs ihs =>
    obtain ⟨hv, hvs⟩ := List.forall_mem_cons.1 ih
    rw [List.map_cons, leavesItems, leavesItems, hv, ihs _ hvs]

theorem leavesItems_prune (dense : Dense (.list items))
    (ih : ∀ v ∈ items, v.prune.leaves = v.leaves) :
    leavesItems 0 (pruneItems items) = leavesItems 0 items := by
  obtain ⟨front, back, rfl, hfront, hback⟩ := exists_front_of_dense dense
  rw [pruneItems_append hfront hback, leavesItems_append, leavesItems_eq_nil hback, List.append_nil]
  exact leavesItems_map_prune 0 fun v hv => ih v (List.mem_append_left _ hv)

theorem leavesEntries_prune (ih : ∀ e ∈ entries, e.2.prune.leaves = e.2.leaves) :
    leavesEntries (pruneEntries entries) = leavesEntries entries := by
  induction entries with
  | nil => rfl
  | cons e es ihs =>
    obtain ⟨he, hes⟩ := List.forall_mem_cons.1 ih
    by_cases h : e.2.isHollow = true
    · rw [pruneEntries, if_pos h, leavesEntries, isHollow_iff.1 h, ihs hes]
      rfl
    · rw [pruneEntries, if_neg h, leavesEntries, leavesEntries, he, ihs hes]

/-- Pruning a dense tree moves no text. -/
theorem leaves_prune {v : Value} (h : v.Everywhere Dense) : v.prune.leaves = v.leaves := by
  induction h with
  | @intro v here _ ih =>
    cases v with
    | scalar => rfl
    | list items => exact leavesItems_prune here ih
    | map entries => exact leavesEntries_prune fun e he => ih _ (List.mem_map_of_mem he)

/-! ### Trees whose texts stay in place -/

theorem length_pruneItems_append_singleton (items : List Value) (v : Value) :
    (pruneItems (items ++ [v])).length =
      (pruneItems items).length + if v.isHollow then 0 else 1 := by
  rw [pruneItems_eq, pruneItems_eq, List.filter_append, List.filter_singleton]
  cases v.isHollow <;> simp

/-- If there are more items with a text than positions in front of any of them, they come first. -/
theorem dense_of_early
    (h : ∀ i, (hi : i < items.length) → items[i].isHollow = false →
      i < (pruneItems items).length) : Dense (.list items) := by
  -- from the end: a last item with a text leaves no room for a hollow one before it
  induction items using List.reverseRecOn with
  | nil => exact .nil
  | append_singleton items v ih =>
    rw [length_pruneItems_append_singleton] at h
    cases hollow : v.isHollow with
    | true =>
      rw [hollow, if_pos rfl, Nat.add_zero] at h
      have hitems := ih fun i hi hi' => h i (by simp; omega) (by simpa [hi] using hi')
      refine List.pairwise_append.2 ⟨hitems, List.pairwise_singleton .., fun a _ b hb hb' => ?_⟩
      rw [List.mem_singleton.1 hb, hollow] at hb'
      cases hb'
    | false =>
      have hlast := h items.length (by simp) (by simpa using hollow)
      have hlen : items.length ≤ (pruneItems items).length := by
        rw [hollow] at hlast
        exact Nat.le_of_lt_succ hlast
      rw [pruneItems_eq, List.length_map] at hlen
      have hall := List.filter_eq_self.1 (List.filter_sublist.eq_of_length_le hlen)
      refine List.pairwise_of_forall_mem_list fun a ha _ _ _ => ?_
      rcases List.mem_append.1 ha with ha | ha
      · simpa using hall a ha
      · rw [List.mem_singleton.1 ha, hollow]

section

variable (h : ∀ leaf ∈ leavesItems 0 items, leaf ∈ leavesItems 0 (pruneItems items))
include h

/-- Items whose texts stay in place are pruned where they stand. -/
theorem exists_of_leavesItems_subset {i : Nat} (hi : i < items.length) :
    ∀ l ∈ items[i].leaves, ∃ hi' : i < (pruneItems items).length,
      l ∈ (pruneItems items)[i].leaves := by
  intro l hl
  obtain ⟨j, hj, l', hl', heq⟩ := exists_of_mem_leavesItems (h _ (mem_leavesItems hi hl))
  simp only [under, Nat.zero_add, Prod.mk.injEq, List.cons.injEq, Segment.index.injEq] at heq
  obtain ⟨⟨rfl, hpath⟩, htext⟩ := heq
  exact ⟨hj, Prod.ext hpath htext ▸ hl'⟩

theorem dense_of_leavesItems_subset : Dense (.list items) := by
  refine dense_of_early fun i hi hfull => ?_
  obtain ⟨l, hl⟩ := List.exists_mem_of_ne_nil _ (isHollow_eq_false_iff.1 hfull)
  obtain ⟨hi', -⟩ := exists_of_leavesItems_subset h hi l hl
  exact hi'

theorem leaves_subset_of_leavesItems_subset : ∀ v ∈ items, ∀ l ∈ v.leaves, l ∈ v.prune.leaves := by
  intro v hv l hl
  obtain ⟨front, back, rfl, hfront, hback⟩ :=
    exists_front_of_dense (dense_of_leavesItems_subset h)
  obtain ⟨i, hi, rfl⟩ := List.getElem_of_mem hv
  obtain ⟨hi', hmem⟩ := exists_of_leavesItems_subset h hi l hl
  simp only [pruneItems_append hfront hback, List.length_map] at hi' hmem
  simpa [hi'] using hmem

end

theorem leaves_subset_of_leavesEntries_subset (hk : (Entries.keys entries).Nodup)
    (h : ∀ leaf ∈ leavesEntries entries, leaf ∈ leavesEntries (pruneEntries entries)) :
    ∀ e ∈ entries, ∀ l ∈ e.2.leaves, l ∈ e.2.prune.leaves := by
  intro e he l hl
  obtain ⟨_, hp, l', hl', hu⟩ := mem_leavesEntries.1 (h _ (mem_leavesEntries.2 ⟨e, he, l, hl, rfl⟩))
  rw [pruneEntries_eq] at hp
  obtain ⟨e', he', rfl⟩ := List.mem_map.1 hp
  have he' := (List.mem_filter.1 he').1
  obtain ⟨hkey, hpath⟩ : e'.1 = e.1 ∧ l' = l := by
    simp only [under, Prod.mk.injEq, List.cons.injEq, Segment.name.injEq] at hu
    exact ⟨hu.1.1, Prod.ext hu.1.2 hu.2⟩
  obtain rfl := List.inj_on_of_nodup_map hk he' he hkey
  exact hpath ▸ hl'

/-- If pruning a tree leaves every text in its place, the tree is dense. -/
theorem dense_of_leaves_subset {v : Value} (hv : v.Everywhere Regular)
    (h : ∀ leaf ∈ v.leaves, leaf ∈ v.prune.leaves) : v.Everywhere Dense := by
  induction hv with
  | @intro v here _ ih =>
    cases v with
    | scalar => exact .intro trivial (by simp [children])
    | list items =>
      have hbelow := leaves_subset_of_leavesItems_subset h
      exact .intro (dense_of_leavesItems_subset h) fun c hc => ih c hc (hbelow c hc)
    | map entries =>
      refine .intro trivial fun c hc => ih c hc ?_
      obtain ⟨e, he, rfl⟩ := List.mem_map.1 hc
      exact leaves_subset_of_leavesEntries_subset here.distinct h e he

end Value

end NestedQuery
