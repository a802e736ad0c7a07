import Mathlib.Data.List.Nodup
import NestedQuery.Document
import NestedQuery.Document.Control
import NestedQuery.KeyPath.Raw

/-!
# The texts of a document and the paths to them

`Value.leaves` lists the texts of a tree in document order, each with the path that leads to it;
`Document.leaves` does so for a whole document. A value is hollow if it holds no text; none is if no
list and no map is empty (`leaves_ne_nil`). What holds of the keys and scalars everywhere in a tree
holds of those that its leaves name (`key_of_mem_leaves`, `text_of_mem_leaves`).
-/

namespace NestedQuery

/-- Puts a step in front of the path to a text. -/
def under {α β : Type} (step : α) (leaf : List α × β) : List α × β :=
  (step :: leaf.1, leaf.2)

/-- The path with its root as the first step. -/
def KeyPath.steps (path : KeyPath) : List Segment :=
  .name path.root :: path.segments

namespace Value

mutual

/-- The texts of a value in document order, each with the path to it. -/
def leaves : Value → List (List Segment × String)
  | .scalar text => [([], text)]
  | .list items => leavesItems 0 items
  | .map entries => leavesEntries entries

def leavesItems (position : Nat) : List Value → List (List Segment × String)
  | [] => []
  | item :: items =>
    (leaves item).map (under (.index position)) ++ leavesItems (position + 1) items

def leavesEntries : List (String × Value) → List (List Segment × String)
  | [] => []
  | (key, value) :: entries => (leaves value).map (under (.name key)) ++ leavesEntries entries

end

/-- Whether a value holds no text. -/
def isHollow (v : Value) : Bool :=
  v.leaves.isEmpty

/-- `P` holds of the value and of all values below it. -/
inductive Everywhere (P : Value → Prop) : Value → Prop
  | intro {v : Value} (here : P v) (below : ∀ c ∈ v.children, Everywhere P c) : Everywhere P v

def keys : Value → List String
  | .map entries => Entries.keys entries
  | _ => []

/-- No key stands twice in a map. -/
def Distinct (v : Value) : Prop :=
  v.keys.Nodup

/-- Each position of a list is a number that an index can name. -/
def Bounded (v : Value) : Prop :=
  ∀ items ∈ v.items?, items.length ≤ indexBound

/-- What every value in memory is: no map has a key twice, and no list outgrows the memory. -/
structure Regular (v : Value) : Prop where
  distinct : v.Distinct
  bounded : v.Bounded

/-- No empty list and no empty map. -/
def Filled (v : Value) : Prop :=
  v.isScalar = true ∨ v.children ≠ []

end Value

namespace Document

/-- The texts of a document in document order, each with its key path. -/
def leaves (doc : Document) : List (KeyPath × String) :=
  doc.entries.flatMap fun entry => entry.2.leaves.map fun leaf => (⟨entry.1, leaf.1⟩, leaf.2)

def root (doc : Document) : Value :=
  .map doc.entries

def Regular (doc : Document) : Prop :=
  doc.root.Everywhere Value.Regular

end Document

namespace Value

@[simp] theorem isHollow_iff {v : Value} : v.isHollow = true ↔ v.leaves = [] := by
  simp [isHollow]

theorem isHollow_eq_false_iff {v : Value} : v.isHollow = false ↔ v.leaves ≠ [] := by
  simp [isHollow]

/-! ### One value -/

@[simp] theorem distinct_scalar (text : String) : (scalar text).Distinct :=
  List.nodup_nil

@[simp] theorem distinct_list (items : List Value) : (list items).Distinct :=
  List.nodup_nil

@[simp] theorem distinct_map {entries : List (String × Value)} :
    (map entries).Distinct ↔ (Entries.keys entries).Nodup :=
  Iff.rfl

@[simp] theorem bounded_scalar (text : String) : (scalar text).Bounded := by
  simp [Bounded, items?]

@[simp] theorem bounded_list {items : List Value} :
    (list items).Bounded ↔ items.length ≤ indexBound := by
  simp [Bounded, items?]

@[simp] theorem bounded_map (entries : List (String × Value)) : (map entries).Bounded := by
  simp [Bounded, items?]

theorem regular_iff {v : Value} : v.Regular ↔ v.Distinct ∧ v.Bounded :=
  ⟨fun h => ⟨h.distinct, h.bounded⟩, fun h => ⟨h.1, h.2⟩⟩

/-! ### Values everywhere in a tree -/

namespace Everywhere
variable {P Q : Value → Prop} {v c : Value}

theorem here (h : v.Everywhere P) : P v := by cases h; assumption

theorem child (h : v.Everywhere P) (hc : c ∈ v.children) : c.Everywhere P := by
  cases h with
  | intro _ below => exact below c hc

theorem item {items : List Value} (h : (Value.list items).Everywhere P) :
    ∀ v ∈ items, v.Everywhere P :=
  fun _ hv => h.child hv

theorem entry {entries : List (String × Value)} (h : (Value.map entries).Everywhere P) :
    ∀ e ∈ entries, e.2.Everywhere P :=
  fun _ he => h.child (List.mem_map_of_mem he)

@[simp] theorem scalar_iff {text : String} : (scalar text).Everywhere P ↔ P (scalar text) := by
  refine ⟨here, fun h => .intro h ?_⟩
  simp [children]

@[simp] theorem list_iff {items : List Value} :
    (list items).Everywhere P ↔ P (list items) ∧ ∀ c ∈ items, c.Everywhere P :=
  ⟨fun h => ⟨h.here, h.item⟩, fun h => .intro h.1 h.2⟩

@[simp] theorem map_iff {entries : List (String × Value)} :
    (map entries).Everywhere P ↔ P (map entries) ∧ ∀ e ∈ entries, e.2.Everywhere P := by
  refine ⟨fun h => ⟨h.here, h.entry⟩, fun h => .intro h.1 fun c hc => ?_⟩
  obtain ⟨e, he, rfl⟩ := List.mem_map.1 hc
  exact h.2 e he

theorem mono (hPQ : ∀ v, P v → Q v) (h : v.Everywhere P) : v.Everywhere Q := by
  induction h with
  | intro here _ ih => exact .intro (hPQ _ here) ih

theorem and (hP : v.Everywhere P) (hQ : v.Everywhere Q) : v.Everywhere fun v => P v ∧ Q v := by
  induction hP with
  | intro here _ ih => exact .intro ⟨here, hQ.here⟩ fun c hc => ih c hc (hQ.child hc)

theorem regular (distinct : v.Everywhere Distinct) (bounded : v.Everywhere Bounded) :
    v.Everywhere Regular :=
  (distinct.and bounded).mono fun _ => regular_iff.2

end Everywhere

theorem weight_lt_of_mem_children {v c : Value} (h : c ∈ v.children) : c.weight < v.weight := by
  obtain ⟨front, back, hsplit⟩ := List.append_of_mem h
  rw [weight_eq v, hsplit, weightItems_append, weightItems]
  omega

/-- What passes from the children of every value to the value holds of all values. -/
theorem children_induction {P : Value → Prop} (step : ∀ v, (∀ c ∈ v.children, P c) → P v)
    (v : Value) : P v := by
  induction hn : v.weight using Nat.strongRecOn generalizing v with
  | ind n ih =>
    subst hn
    exact step v fun c hc => ih _ (weight_lt_of_mem_children hc) c rfl

/-! ### Where leaves stand -/

variable {items : List Value} {entries : List (String × Value)}

theorem leavesEntries_eq (entries : List (String × Value)) :
    leavesEntries entries =
      entries.flatMap fun entry => entry.2.leaves.map (under (.name entry.1)) := by
  induction entries with
  | nil => rfl
  | cons e es ih => simp [leavesEntries, ih]

theorem mem_leavesEntries {leaf : List Segment × String} :
    leaf ∈ leavesEntries entries ↔
      ∃ entry ∈ entries, ∃ l ∈ entry.2.leaves, under (.name entry.1) l = leaf := by
  simp [leavesEntries_eq]

/-- What stands below the items of a list, each with its path from the list. -/
theorem mem_below_items_iff {α : Type} {f : Value → List (List Segment × α)} {n : Nat}
    {found : List Segment × α} :
    found ∈ (items.zipIdx n).flatMap (fun p => (f p.1).map (under (.index p.2))) ↔
      ∃ i, ∃ hi : i < items.length, ∃ l ∈ f items[i], under (.index (n + i)) l = found := by
  rw [List.mem_flatMap]
  constructor
  · rintro ⟨⟨v, position⟩, hv, hfound⟩
    obtain ⟨l, hl, rfl⟩ := List.mem_map.1 hfound
    obtain ⟨hle, hlt, hitem⟩ := List.mem_zipIdx hv
    exact ⟨position - n, by omega, l, hitem ▸ hl, by rw [Nat.add_sub_cancel' hle]⟩
  · rintro ⟨i, hi, l, hl, rfl⟩
    exact ⟨(items[i], n + i), List.mk_add_mem_zipIdx_iff_getElem?.2 (List.getElem?_eq_getElem hi),
      List.mem_map_of_mem hl⟩

theorem leavesItems_eq (n : Nat) (items : List Value) :
    leavesItems n items =
      (items.zipIdx n).flatMap fun p => p.1.leaves.map (under (.index p.2)) := by
  induction items generalizing n with
  | nil => rfl
  | cons v vs ih => rw [leavesItems, ih, List.zipIdx_cons, List.flatMap_cons]

theorem exists_of_mem_leavesItems {n : Nat} {leaf : List Segment × String}
    (h : leaf ∈ leavesItems n items) :
    ∃ i, ∃ hi : i < items.length, ∃ l ∈ items[i].leaves, under (.index (n + i)) l = leaf :=
  mem_below_items_iff.1 (leavesItems_eq n items ▸ h)

theorem mem_leavesItems {n i : Nat} (hi : i < items.length) {l : List Segment × String}
    (hl : l ∈ items[i].leaves) : under (.index (n + i)) l ∈ leavesItems n items := by
  rw [leavesItems_eq]
  exact mem_below_items_iff.2 ⟨i, hi, l, hl, rfl⟩

/-- A text below a child is a text below the value, one step further down. -/
theorem exists_under_of_mem_children {v c : Value} (hc : c ∈ v.children) :
    ∃ s, ∀ l ∈ c.leaves, under s l ∈ v.leaves := by
  cases v with
  | scalar => cases hc
  | list items =>
    obtain ⟨i, hi, rfl⟩ := List.getElem_of_mem hc
    exact ⟨.index (0 + i), fun l hl => mem_leavesItems hi hl⟩
  | map entries =>
    obtain ⟨e, he, rfl⟩ := List.mem_map.1 hc
    exact ⟨.name e.1, fun l hl => mem_leavesEntries.2 ⟨e, he, l, hl, rfl⟩⟩

theorem leavesItems_eq_nil {n : Nat} (h : ∀ v ∈ items, v.isHollow = true) :
    leavesItems n items = [] := by
  induction items generalizing n with
  | nil => rfl
  | cons v vs ih =>
    rw [leavesItems, isHollow_iff.1 (h v (by simp)), ih fun w hw => h w (by simp [hw])]
    rfl

theorem leaves_ne_nil {v : Value} (h : v.Everywhere Filled) : v.leaves ≠ [] := by
  induction h with
  | @intro v here _ ih =>
    match v, here, ih with
    | .scalar _, _, _ => simp [leaves]
    | .list (item :: _), _, ih => simp [leaves, leavesItems, ih item (by simp [children])]
    | .map ((_, value) :: _), _, ih =>
      simp [leaves, leavesEntries, ih value (by simp [children])]
    | .list [], h, _ => simp [Filled, isScalar, children] at h
    | .map [], h, _ => simp [Filled, isScalar, children] at h

/-- A value that holds a text is one, or has a child that holds one. -/
theorem exists_child_of_isHollow {v : Value} (h : v.isHollow = false) :
    v.isScalar = true ∨ ∃ c ∈ v.children, c.isHollow = false := by
  obtain ⟨leaf, hleaf⟩ := List.exists_mem_of_ne_nil _ (isHollow_eq_false_iff.1 h)
  cases v with
  | scalar => exact .inl rfl
  | list items =>
    obtain ⟨i, hi, l, hl, -⟩ := exists_of_mem_leavesItems hleaf
    exact .inr ⟨_, List.getElem_mem hi, isHollow_eq_false_iff.2 (List.ne_nil_of_mem hl)⟩
  | map entries =>
    obtain ⟨e, he, l, hl, -⟩ := mem_leavesEntries.1 hleaf
    exact .inr ⟨_, List.mem_map_of_mem he, isHollow_eq_false_iff.2 (List.ne_nil_of_mem hl)⟩

/-- What the texts below a value pass on to it, one step longer, holds of all its texts. -/
theorem forall_mem_leaves {P : Value → Prop} {M : List Segment × String → Prop}
    (scalar : ∀ text, P (.scalar text) → M ([], text))
    (item : ∀ items, P (.list items) → ∀ i < items.length, ∀ l, M l → M (under (.index i) l))
    (entry : ∀ entries, P (.map entries) → ∀ key ∈ Entries.keys entries, ∀ l, M l →
      M (under (.name key) l))
    {v : Value} (h : v.Everywhere P) : ∀ leaf ∈ v.leaves, M leaf := by
  induction h with
  | @intro v here _ ih =>
    intro leaf hleaf
    cases v with
    | scalar text =>
      rw [leaves, List.mem_singleton] at hleaf
      rw [hleaf]
      exact scalar text here
    | list items =>
      obtain ⟨i, hi, l, hl, rfl⟩ := exists_of_mem_leavesItems hleaf
      rw [Nat.zero_add]
      exact item items here i hi l (ih _ (List.getElem_mem hi) l hl)
    | map entries =>
      obtain ⟨e, he, l, hl, rfl⟩ := mem_leavesEntries.1 hleaf
      have hbelow := ih _ (List.mem_map_of_mem he) l hl
      exact entry entries here e.1 (List.mem_map_of_mem he) l hbelow

/-- The path to a text has no append, and no index that a key could not name. -/
theorem step_of_mem_leaves {v : Value} (h : v.Everywhere Bounded) :
    ∀ leaf ∈ v.leaves, ∀ s ∈ leaf.1, s ≠ .append ∧ ∀ n, s = .index n → n < indexBound := by
  refine forall_mem_leaves (fun _ _ => by simp) (fun items bounded i hi l hl => ?_)
    (fun entries _ key _ l hl => ?_) h
  · refine List.forall_mem_cons.2 ⟨⟨nofun, ?_⟩, hl⟩
    rintro _ ⟨⟩
    exact Nat.lt_of_lt_of_le hi (bounded_list.1 bounded)
  · exact List.forall_mem_cons.2 ⟨⟨nofun, nofun⟩, hl⟩

theorem key_of_mem_leaves {C : String → Prop} {v : Value}
    (h : v.Everywhere fun v => ∀ key ∈ v.keys, C key) :
    ∀ leaf ∈ v.leaves, ∀ key, .name key ∈ leaf.1 → C key := by
  refine forall_mem_leaves (fun _ _ => by simp) (fun items _ i _ l hl key hkey => ?_)
    (fun entries here other hother l hl key hkey => ?_) h
  · rcases List.mem_cons.1 hkey with hkey | hkey
    · cases hkey
    · exact hl key hkey
  · rcases List.mem_cons.1 hkey with hkey | hkey
    · cases hkey
      exact here other hother
    · exact hl key hkey

theorem text_of_mem_leaves {C : String → Prop} {v : Value}
    (h : v.Everywhere fun v => ∀ text ∈ v.text?, C text) : ∀ leaf ∈ v.leaves, C leaf.2 :=
  forall_mem_leaves (fun text here => here text rfl) (fun _ _ _ _ _ hl => hl)
    (fun _ _ _ _ _ hl => hl) h

end Value

end NestedQuery
