import Mathlib.Data.List.Perm.Basic
import Mathlib.Data.List.Forall2
import NestedQuery.Document.Equality
import NestedQuery.Proofs.Leaves

/-!
# Equal documents

Equality of documents looks keys up, so it is as expected only where no key stands twice in a map.
Then every value is equal to itself (`same_self`), and equal values hold the same texts in the same
places (`mem_leaves_iff_of_same`). Where no list and no map is empty, values that hold the same
texts in the same places are equal (`same_of_leaves`).
-/

namespace NestedQuery

namespace Value

theorem sameItems_iff {as bs : List Value} :
    sameItems as bs = true ↔ List.Forall₂ (fun a b => same a b = true) as bs := by
  induction as generalizing bs with
  | nil => cases bs <;> simp [sameItems]
  | cons a as ih => cases bs <;> simp [sameItems, ih]

theorem sameEntries_iff {as bs : List (String × Value)} :
    sameEntries as bs = true ↔
      ∀ e ∈ as, ∃ b, bs.lookup e.1 = some b ∧ same e.2 b = true := by
  induction as with
  | nil => simp [sameEntries]
  | cons e as ih =>
    rw [sameEntries, Bool.and_eq_true, ih, List.forall_mem_cons]
    refine and_congr_left fun _ => ?_
    cases bs.lookup e.1 <;> simp

theorem same_self {v : Value} (h : v.Everywhere Distinct) : v.same v = true := by
  induction h with
  | @intro v here _ ih =>
    cases v with
    | scalar text => simp [same]
    | list items => exact sameItems_iff.2 (List.forall₂_same.2 ih)
    | map entries =>
      rw [same, Bool.and_eq_true]
      refine ⟨beq_self_eq_true _, sameEntries_iff.2 fun e he => ?_⟩
      exact ⟨e.2, Entries.lookup_of_mem here he, ih e.2 (List.mem_map_of_mem he)⟩

theorem mem_leavesItems_iff {as bs : List Value}
    (h : List.Forall₂ (fun a b => same a b = true) as bs)
    (ih : ∀ a ∈ as, ∀ b ∈ bs, same a b = true → ∀ leaf, leaf ∈ leaves a ↔ leaf ∈ leaves b)
    (n : Nat) (leaf : List Segment × String) :
    leaf ∈ leavesItems n as ↔ leaf ∈ leavesItems n bs := by
  induction h generalizing n with
  | nil => exact Iff.rfl
  | @cons a b as bs hab _ ihs =>
    have head := ih a (List.mem_cons_self ..) b (List.mem_cons_self ..) hab
    have tail := ihs (fun a ha b hb =>
      ih a (List.mem_cons_of_mem _ ha) b (List.mem_cons_of_mem _ hb)) (n + 1)
    simp only [leavesItems, List.mem_append, List.mem_map, head, tail]

/-- Maps of equal size, of which one has all keys of the other, have the same keys. -/
theorem keys_perm_of_sameEntries {as bs : List (String × Value)}
    (distinct : (Entries.keys as).Nodup) (hlen : as.length = bs.length)
    (h : sameEntries as bs = true) : (Entries.keys as).Perm (Entries.keys bs) := by
  refine (List.subperm_of_subset distinct fun key hkey => ?_).perm_of_length_le ?_
  · obtain ⟨e, he, rfl⟩ := List.mem_map.1 hkey
    obtain ⟨b, hb, -⟩ := sameEntries_iff.1 h e he
    exact List.mem_map.2 ⟨_, Entries.mem_of_lookup hb, rfl⟩
  · simp [Entries.keys, hlen]

theorem mem_leaves_iff_of_same {a b : Value} (ha : a.Everywhere Distinct)
    (hb : b.Everywhere Distinct) (h : a.same b = true) (leaf : List Segment × String) :
    leaf ∈ a.leaves ↔ leaf ∈ b.leaves := by
  induction ha generalizing b leaf with
  | @intro a here _ ih =>
    match a, b, h with
    | .scalar s, .scalar t, h => rw [beq_iff_eq.1 h]
    | .list as, .list bs, h =>
      exact mem_leavesItems_iff (sameItems_iff.1 h) (fun a ha b hmem => ih a ha (hb.item b hmem)) 0
        leaf
    | .map as, .map bs, h =>
      obtain ⟨hlen, hentries⟩ := Bool.and_eq_true_iff.1 h
      have hkeys := keys_perm_of_sameEntries here (beq_iff_eq.1 hlen) hentries
      simp only [leaves, mem_leavesEntries]
      constructor
      · rintro ⟨e, he, l, hl, rfl⟩
        obtain ⟨v, hv, hsame⟩ := sameEntries_iff.1 hentries e he
        have hmem := Entries.mem_of_lookup hv
        exact ⟨_, hmem, l, (ih _ (List.mem_map_of_mem he) (hb.entry _ hmem) hsame l).1 hl, rfl⟩
      · rintro ⟨⟨key, v⟩, he, l, hl, rfl⟩
        obtain ⟨e, hmem, rfl⟩ := List.mem_map.1 (hkeys.mem_iff.2 (List.mem_map_of_mem he))
        obtain ⟨w, hw, hsame⟩ := sameEntries_iff.1 hentries e hmem
        rw [Entries.lookup_of_mem hb.here he] at hw
        cases hw
        exact ⟨e, hmem, l, (ih _ (List.mem_map_of_mem hmem) (hb.entry _ he) hsame l).2 hl, rfl⟩

/-! ### Equal for their texts -/

theorem under_inj {s t : Segment} {l m : List Segment × String} :
    under s l = under t m ↔ s = t ∧ l = m := by
  simp only [under, List.cons.injEq, Prod.ext_iff]
  tauto

theorem under_index_mem_leaves {items : List Value} {i : Nat} {l : List Segment × String} :
    under (.index i) l ∈ (list items).leaves ↔ ∃ h : i < items.length, l ∈ items[i].leaves := by
  constructor
  · intro h
    obtain ⟨j, hj, m, hm, heq⟩ := exists_of_mem_leavesItems h
    obtain ⟨hindex, rfl⟩ := under_inj.1 heq
    rw [Nat.zero_add] at hindex
    cases hindex
    exact ⟨hj, hm⟩
  · rintro ⟨hi, hl⟩
    have := mem_leavesItems (n := 0) hi hl
    rwa [Nat.zero_add] at this

theorem under_name_mem_leaves {entries : List (String × Value)} {key : String}
    {l : List Segment × String} :
    under (.name key) l ∈ (map entries).leaves ↔ ∃ v, (key, v) ∈ entries ∧ l ∈ v.leaves := by
  rw [leaves, mem_leavesEntries]
  constructor
  · rintro ⟨e, he, m, hm, heq⟩
    obtain ⟨hkey, rfl⟩ := under_inj.1 heq
    cases hkey
    exact ⟨e.2, he, hm⟩
  · rintro ⟨v, he, hl⟩
    exact ⟨_, he, l, hl, rfl⟩

/-- No empty list and no empty map, and no key twice in a map, anywhere in the value. -/
abbrev Proper (v : Value) : Prop :=
  v.Everywhere fun v => v.Filled ∧ v.Distinct

theorem exists_leaf {v : Value} (h : v.Proper) : ∃ leaf, leaf ∈ v.leaves :=
  List.exists_mem_of_ne_nil _ (leaves_ne_nil (h.mono fun _ => And.left))

/-- Maps with the same texts below their keys are equal if what stands under a key is. -/
theorem same_map_of_leaves {as bs : List (String × Value)} (ha : ∀ e ∈ as, e.2.Proper)
    (hb : ∀ e ∈ bs, e.2.Proper) (hda : (Entries.keys as).Nodup) (hdb : (Entries.keys bs).Nodup)
    (h : ∀ leaf, leaf ∈ (map as).leaves ↔ leaf ∈ (map bs).leaves)
    (same_of_leaves : ∀ e ∈ as, ∀ b : Value, b.Proper →
      (∀ leaf, leaf ∈ e.2.leaves ↔ leaf ∈ b.leaves) → e.2.same b = true) :
    (map as).same (map bs) = true := by
  have keys_subset {as bs : List (String × Value)} (ha : ∀ e ∈ as, e.2.Proper)
      (h : ∀ leaf, leaf ∈ (map as).leaves → leaf ∈ (map bs).leaves) :
      Entries.keys as ⊆ Entries.keys bs := by
    intro key hkey
    obtain ⟨e, he, rfl⟩ := List.mem_map.1 hkey
    obtain ⟨l, hl⟩ := exists_leaf (ha e he)
    obtain ⟨v, hv, -⟩ := under_name_mem_leaves.1 (h _ (under_name_mem_leaves.2 ⟨e.2, he, hl⟩))
    exact List.mem_map.2 ⟨_, hv, rfl⟩
  have hkeys : (Entries.keys as).Perm (Entries.keys bs) :=
    (List.perm_ext_iff_of_nodup hda hdb).2 fun key =>
      ⟨fun hkey => keys_subset ha (fun leaf => (h leaf).1) hkey,
        fun hkey => keys_subset hb (fun leaf => (h leaf).2) hkey⟩
  rw [same, Bool.and_eq_true]
  constructor
  · have hlen := hkeys.length_eq
    rw [Entries.keys, Entries.keys, List.length_map, List.length_map] at hlen
    exact beq_iff_eq.2 hlen
  · refine sameEntries_iff.2 fun e he => ?_
    obtain ⟨other, hother, hkey⟩ := List.mem_map.1 (hkeys.mem_iff.1 (List.mem_map_of_mem he))
    have hlookup : bs.lookup e.1 = some other.2 := by
      rw [← hkey]
      exact Entries.lookup_of_mem hdb hother
    refine ⟨other.2, hlookup, same_of_leaves e he other.2 (hb other hother) fun l => ?_⟩
    -- both stand under one key, and nothing else does
    have honly {cs : List (String × Value)} (hd : (Entries.keys cs).Nodup) {c : String × Value}
        (hc : c ∈ cs) : under (.name c.1) l ∈ (map cs).leaves ↔ l ∈ c.2.leaves := by
      rw [under_name_mem_leaves]
      constructor
      · rintro ⟨v, hv, hl⟩
        have hv := Entries.lookup_of_mem hd hv
        rw [Entries.lookup_of_mem hd hc] at hv
        cases hv
        exact hl
      · exact fun hl => ⟨c.2, hc, hl⟩
    rw [← honly hda he, ← honly hdb hother, hkey]
    exact h _

/-- Lists with the same texts at their positions are equal if what stands at a position is. -/
theorem same_list_of_leaves {as bs : List Value} (ha : ∀ v ∈ as, v.Proper) (hb : ∀ v ∈ bs, v.Proper)
    (h : ∀ leaf, leaf ∈ (list as).leaves ↔ leaf ∈ (list bs).leaves)
    (same_of_leaves : ∀ a ∈ as, ∀ b : Value, b.Proper →
      (∀ leaf, leaf ∈ a.leaves ↔ leaf ∈ b.leaves) → a.same b = true) :
    (list as).same (list bs) = true := by
  have length_le {as bs : List Value} (ha : ∀ v ∈ as, v.Proper)
      (h : ∀ leaf, leaf ∈ (list as).leaves → leaf ∈ (list bs).leaves) : as.length ≤ bs.length := by
    by_contra hlt
    have hlast : bs.length < as.length := Nat.lt_of_not_le hlt
    obtain ⟨l, hl⟩ := exists_leaf (ha _ (List.getElem_mem hlast))
    obtain ⟨hbs, -⟩ := under_index_mem_leaves.1 (h _ (under_index_mem_leaves.2 ⟨hlast, hl⟩))
    exact Nat.lt_irrefl _ hbs
  have hlen : as.length = bs.length :=
    Nat.le_antisymm (length_le ha fun leaf => (h leaf).1) (length_le hb fun leaf => (h leaf).2)
  rw [same, sameItems_iff, List.forall₂_iff_get]
  refine ⟨hlen, fun i hi hi' => ?_⟩
  refine same_of_leaves _ (List.get_mem as ⟨i, hi⟩) _ (hb _ (List.get_mem bs ⟨i, hi'⟩)) fun l => ?_
  have hunder := h (under (.index i) l)
  rw [under_index_mem_leaves, under_index_mem_leaves, exists_prop_of_true hi,
    exists_prop_of_true hi'] at hunder
  exact hunder

/-- The path to a text tells what it starts in. -/
theorem form_of_mem_leaves {v : Value} {leaf : List Segment × String} (h : leaf ∈ v.leaves) :
    (∃ text, v = scalar text ∧ leaf = ([], text)) ∨
      (∃ items, v = list items ∧ ∃ i l, leaf = under (.index i) l) ∨
      ∃ entries, v = map entries ∧ ∃ key l, leaf = under (.name key) l := by
  cases v with
  | scalar text => exact .inl ⟨text, rfl, List.mem_singleton.1 h⟩
  | list items =>
    obtain ⟨i, hi, l, -, rfl⟩ := exists_of_mem_leavesItems h
    exact .inr (.inl ⟨items, rfl, _, l, rfl⟩)
  | map entries =>
    obtain ⟨e, -, l, -, rfl⟩ := mem_leavesEntries.1 h
    exact .inr (.inr ⟨entries, rfl, e.1, l, rfl⟩)

/-- Values without empty lists and maps are equal if they hold the same texts in the same places. -/
theorem same_of_leaves {a b : Value} (ha : a.Proper) (hb : b.Proper)
    (h : ∀ leaf, leaf ∈ a.leaves ↔ leaf ∈ b.leaves) : a.same b = true := by
  induction a using children_induction generalizing b with
  | step a ih =>
    obtain ⟨leaf, hleaf⟩ := exists_leaf ha
    rcases form_of_mem_leaves hleaf with
      ⟨s, rfl, heq⟩ | ⟨as, rfl, i, l, heq⟩ | ⟨as, rfl, key, l, heq⟩ <;>
    rcases form_of_mem_leaves ((h leaf).1 hleaf) with
      ⟨t, rfl, heq'⟩ | ⟨bs, rfl, j, m, heq'⟩ | ⟨bs, rfl, other, m, heq'⟩
    case inl.inl =>
      cases heq.symm.trans heq'
      exact beq_self_eq_true s
    case inr.inl.inr.inl =>
      refine same_list_of_leaves ha.item hb.item h fun a hmem b hb h => ?_
      exact ih a hmem (ha.item a hmem) hb h
    case inr.inr.inr.inr =>
      refine same_map_of_leaves ha.entry hb.entry ha.here.2 hb.here.2 h fun e he b hb h => ?_
      exact ih e.2 (List.mem_map_of_mem he) (ha.entry e he) hb h
    -- no path starts in two ways
    all_goals cases heq.symm.trans heq'

end Value

end NestedQuery
