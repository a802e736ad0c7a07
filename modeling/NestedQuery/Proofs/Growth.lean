import NestedQuery.Proofs.Opening

/-!
# What a write adds to a tree

A node may still be missing, so that building a subtree is a write like any other (`grow`). A write
goes on in the slot that it opens (`grow_cons`), where its trail goes on too (`resolve_of_open?`).
So it fails exactly if its trail clashes with those there are (`grow_eq_none_iff`), and otherwise
adds its trail to them (`trails_of_grow`).
-/

namespace NestedQuery

namespace Node

/-- Writes `text` at `path` where a node is or is still missing. -/
def grow (text : String) (path : List Segment) : Option Node → Option Node
  | some node => node.insert text path
  | none => build text path

theorem build_cons (text : String) (s : Segment) (path : List Segment) :
    build text (s :: path) = (build text path).bind (wrap s) :=
  rfl

/-- A write goes on in the slot that it opens. -/
theorem grow_cons (text : String) (s : Segment) (path : List Segment) (node? : Option Node) :
    grow text (s :: path) node? =
      (open? s node?).bind fun o => (grow text path o.child).map o.put := by
  cases node? with
  | none =>
    rw [grow, build_cons]
    cases s with
    | name | append => cases hb : build text path <;> simp [open?, grow, wrap, hb]
    | index position =>
      by_cases h : position = 0 <;> cases hb : build text path <;> simp [open?, grow, wrap, hb, h]
  | some node =>
    rw [grow]
    cases s with
    | name key =>
      cases node with
      | leaf | list => simp [insert, open?]
      | map entries =>
        rw [insert, Entries.update?_eq_map_put, Option.map_map]
        simp only [open?, Option.bind_some]
        cases entries.lookup key <;> rfl
    | append =>
      cases node with
      | leaf | map => simp [insert, open?]
      | list style items =>
        cases style with
        | indexed => simp [insert, open?]
        | append => rw [insert]; rfl
    | index position =>
      cases node with
      | leaf | map => simp [insert, open?]
      | list style items =>
        cases style with
        | append => simp [insert, open?]
        | indexed =>
          rw [insert]
          simp only [open?]
          split_ifs <;> rfl

/-! ### What a write does to the texts -/

variable {cs : List (Hop × Node)} {s : Segment} {o : Opening} {node? : Option Node} {text : String}

theorem trailsBelow_append (front back : List (Hop × Node)) :
    trailsBelow (front ++ back) = trailsBelow front ++ trailsBelow back :=
  List.flatMap_append

theorem trailsBelow_singleton (hop : Hop) (c : Node) :
    trailsBelow [(hop, c)] = c.trails.map (under hop) :=
  List.append_nil _

theorem below_append (s : Segment) (front back : List Trail) :
    Trail.below s (front ++ back) = Trail.below s front ++ Trail.below s back :=
  List.filterMap_append

theorem below_trailsBelow_of_fresh (fresh : s ∉ cs.map fun child => child.1.place) :
    Trail.below s ((trailsBelow cs).map Prod.fst) = [] := by
  refine List.eq_nil_iff_forall_not_mem.2 fun rest hrest => ?_
  obtain ⟨hop, hplace, hmem⟩ := Trail.mem_below.1 hrest
  obtain ⟨child, hchild, _, -, heq⟩ := mem_trailsBelow.1 hmem
  cases heq
  exact fresh (List.mem_map.2 ⟨child, hchild, hplace⟩)

theorem below_under (hop : Hop) (leaves : List (Trail × String)) :
    Trail.below hop.place ((leaves.map (under hop)).map Prod.fst) = leaves.map Prod.fst := by
  induction leaves with
  | nil => rfl
  | cons leaf leaves ih =>
    have hhead : Trail.tail? hop.place (under hop leaf).1 = some leaf.1 := if_pos rfl
    rw [List.map_cons, List.map_cons, Trail.below, List.filterMap_cons_some hhead, List.map_cons]
    exact congrArg _ ih

theorem Opens.below_eq (h : Opens cs o) (places : (cs.map fun child => child.1.place).Nodup) :
    Trail.below o.hop.place ((trailsBelow cs).map Prod.fst) = (trails? o.child).map Prod.fst := by
  cases h with
  | new child fresh _ => rw [below_trailsBelow_of_fresh fresh, child]; rfl
  | @there front back old split child _ =>
    subst split
    rw [List.map_append, List.map_cons] at places
    obtain ⟨-, hback, hne⟩ := List.nodup_append.1 places
    have hfront : Trail.below o.hop.place ((trailsBelow front).map Prod.fst) = [] :=
      below_trailsBelow_of_fresh fun hmem => hne _ hmem _ (List.mem_cons_self ..) rfl
    have hback := below_trailsBelow_of_fresh (List.nodup_cons.1 hback).1
    rw [← List.singleton_append, trailsBelow_append, trailsBelow_append, trailsBelow_singleton,
      List.map_append, List.map_append, below_append, below_append, hfront, hback, below_under,
      child, List.nil_append, List.append_nil]
    rfl

/-- A text that is new below a slot is new below the container. -/
theorem Opens.trails_put (h : Opens cs o) {c : Node} {new : Trail × String}
    (hc : c.trails.Perm (new :: trails? o.child)) :
    (trailsBelow (o.put c).children).Perm (under o.hop new :: trailsBelow cs) := by
  have hunder := hc.map (under o.hop)
  cases h with
  | new child _ put =>
    rw [child] at hunder
    rw [put, trailsBelow_append, trailsBelow_singleton]
    exact (hunder.append_left _).trans List.perm_append_comm
  | @there front back old split child put =>
    rw [child] at hunder
    rw [put, split, ← List.singleton_append, ← List.singleton_append (l := back),
      trailsBelow_append, trailsBelow_append, trailsBelow_append, trailsBelow_append,
      trailsBelow_singleton, trailsBelow_singleton]
    exact ((hunder.append_right _).append_left _).trans List.perm_middle

theorem Opens.grown_put (h : Opens cs o) (places : (cs.map fun child => child.1.place).Nodup)
    (grown : ∀ child ∈ cs, child.2.Grown) {c : Node} (hc : c.Grown) : (o.put c).Grown := by
  cases h with
  | new child fresh put =>
    refine .container (by simp [put]) ?_ ?_
    · rw [put, List.map_append]
      refine List.nodup_append.2 ⟨places, List.nodup_singleton _, fun a ha b hb hab => ?_⟩
      rw [hab, List.mem_singleton.1 hb] at ha
      exact fresh ha
    · rw [put]
      intro child' hchild
      rcases List.mem_append.1 hchild with hchild | hchild
      · exact grown child' hchild
      · rw [List.mem_singleton.1 hchild]; exact hc
  | @there front back old split child put =>
    subst split
    refine .container (by simp [put]) ?_ ?_
    · rw [put]
      simpa using places
    · rw [put]
      intro child' hchild
      rcases List.mem_append.1 hchild with hchild | hchild
      · exact grown child' (by simp [hchild])
      · rcases List.mem_cons.1 hchild with rfl | hchild
        · exact hc
        · exact grown child' (by simp [hchild])

/-- What is known of a node that may be missing, all but a text: its trails are those of its
children, which take distinct slots. -/
theorem trails?_eq (grown : ∀ node ∈ node?, node.Grown)
    (hleaf : ∀ text, node? ≠ some (.leaf text)) :
    trails? node? = trailsBelow (children? node?) ∧
      ((children? node?).map fun child => child.1.place).Nodup ∧
      ∀ child ∈ children? node?, child.2.Grown := by
  cases node? with
  | none => exact ⟨rfl, List.nodup_nil, by simp [children?]⟩
  | some node =>
    cases grown node rfl with
    | leaf text => exact absurd rfl (hleaf text)
    | container ne places below =>
      exact ⟨trails_of_children ne, places, below⟩

section Open
variable (grown : ∀ node ∈ node?, node.Grown) (h : open? s node? = some o)
include grown h

theorem trails?_of_open? :
    trails? node? = trailsBelow (children? node?) ∧
      ((children? node?).map fun child => child.1.place).Nodup ∧
      ∀ child ∈ children? node?, child.2.Grown := by
  refine trails?_eq grown ?_
  rintro text rfl
  cases s <;> cases h

theorem grown_of_open? : ∀ node ∈ o.child, node.Grown := by
  intro old hold
  obtain ⟨-, -, hgrown⟩ := trails?_of_open? grown h
  cases (fits_of_open? h).opens with
  | new child _ _ => rw [child] at hold; cases hold
  | there split child _ =>
    rw [child] at hold
    cases hold
    exact hgrown (o.hop, old) (by simp [split])

theorem below_of_open? :
    Trail.below o.hop.place ((trails? node?).map Prod.fst) = (trails? o.child).map Prod.fst := by
  obtain ⟨htrails, places, -⟩ := trails?_of_open? grown h
  rw [htrails, (fits_of_open? h).opens.below_eq places]

theorem slots_of_open? :
    Trail.slots ((trails? node?).map Prod.fst) [] = (children? node?).length := by
  obtain ⟨htrails, places, hgrown⟩ := trails?_of_open? grown h
  rw [htrails, slots_trailsBelow places hgrown]

/-- The trail of a write that opens a slot goes through the slot. -/
theorem resolve_of_open? (path : List Segment) :
    Trail.resolveFrom ((trails? node?).map Prod.fst) [] (s :: path) =
      o.hop :: Trail.resolveFrom ((trails? o.child).map Prod.fst) [] path := by
  rw [Trail.resolveFrom_nil_cons, slots_of_open? grown h, ← (fits_of_open? h).hop,
    below_of_open? grown h]

/-- A write that opens a slot can clash below the slot only. -/
theorem clash_of_open? (new : Trail) :
    Trail.Clash ((trails? node?).map Prod.fst) (o.hop :: new) ↔
      Trail.Clash ((trails? o.child).map Prod.fst) new := by
  obtain ⟨htrails, -, -⟩ := trails?_of_open? grown h
  have fits := fits_of_open? h
  rw [Trail.clash_cons, slots_of_open? grown h, below_of_open? grown h]
  refine ⟨?_, fun hclash => .inr <| .inr <| .inr hclash⟩
  rintro (hnil | ⟨old, rest, hold, hne⟩ | ⟨position, hposition, hgap⟩ | hclash)
  · rw [htrails] at hnil
    obtain ⟨_, _, _, _, hcons⟩ := mem_trailsBelow.1 hnil
    cases hcons
  · rw [htrails] at hold
    obtain ⟨child, hchild, _, _, hcons⟩ := mem_trailsBelow.1 hold
    cases hcons
    rw [fits.kind child hchild, fits.hop, Segment.kind_resolve] at hne
    exact absurd rfl hne
  · rw [fits.hop] at hposition
    cases s with
    | index => cases hposition; exact absurd (fits.no_gap position rfl) (by omega)
    | name | append => cases hposition
  · exact hclash

theorem put_of_open? {c : Node} {new : Trail × String} (hc : c.Grown)
    (hperm : c.trails.Perm (new :: trails? o.child)) :
    (o.put c).Grown ∧ (o.put c).trails.Perm (under o.hop new :: trails? node?) := by
  obtain ⟨htrails, places, hgrown⟩ := trails?_of_open? grown h
  have opens := (fits_of_open? h).opens
  have hput := opens.trails_put hperm
  refine ⟨opens.grown_put places hgrown hc, ?_⟩
  rwa [htrails, trails_of_children fun hnil => ?_]
  rw [hnil] at hput
  cases hput.symm.eq_nil

end Open

theorem clash_of_open?_eq_none (grown : ∀ node ∈ node?, node.Grown) (h : open? s node? = none)
    (path : List Segment) :
    Trail.Clash ((trails? node?).map Prod.fst)
      (Trail.resolveFrom ((trails? node?).map Prod.fst) [] (s :: path)) := by
  rw [Trail.resolveFrom_nil_cons, Trail.clash_cons, Segment.kind_resolve]
  cases node? with
  | none =>
    match s with
    | .index 0 => cases h
    | .index (position + 1) => exact .inr <| .inr <| .inl ⟨_, rfl, Nat.succ_pos _⟩
  | some node =>
    cases grown node rfl with
    | leaf text => exact .inl <| List.mem_singleton.2 rfl
    | container ne places below =>
      rw [trails?, Option.elim_some, trails_of_children ne, slots_trailsBelow places below]
      rcases of_open?_eq_none ne h with ⟨child, hchild, hne⟩ | ⟨position, rfl, hgap⟩
      · obtain ⟨rest, hrest⟩ := List.exists_mem_of_ne_nil _ <|
          mt List.map_eq_nil_iff.1 (below child hchild).trails_ne_nil
        exact .inr <| .inl
          ⟨child.1, rest, mem_trailsBelow.2 ⟨child, hchild, rest, hrest, rfl⟩, hne⟩
      · exact .inr <| .inr <| .inl ⟨position, rfl, hgap⟩

/-- A write fails exactly if it clashes with the texts there are. -/
theorem grow_eq_none_iff (text : String) (path : List Segment)
    (grown : ∀ node ∈ node?, node.Grown) :
    grow text path node? = none ↔
      Trail.Clash ((trails? node?).map Prod.fst)
        (Trail.resolveFrom ((trails? node?).map Prod.fst) [] path) := by
  -- on the path: what is left of it is a write into the slot that its first segment opens
  induction path generalizing node? with
  | nil =>
    rw [Trail.resolveFrom, Trail.clash_nil]
    cases node? with
    | none => simp [grow, build, trails?]
    | some node =>
      have := (grown node rfl).trails_ne_nil
      simp [grow, insert, trails?, this]
  | cons s path ih =>
    rw [grow_cons]
    cases h : open? s node? with
    | none => simpa using clash_of_open?_eq_none grown h path
    | some o =>
      rw [Option.bind_some, Option.map_eq_none_iff, ih (grown_of_open? grown h),
        resolve_of_open? grown h, clash_of_open? grown h]

/-- A write that succeeds adds its trail to those there are. -/
theorem trails_of_grow {text : String} {path : List Segment} {node : Node}
    (grown : ∀ node ∈ node?, node.Grown) (h : grow text path node? = some node) :
    node.Grown ∧ node.trails.Perm
      ((Trail.resolveFrom ((trails? node?).map Prod.fst) [] path, text) :: trails? node?) := by
  induction path generalizing node? node with
  | nil =>
    cases node? with
    | none => cases h; exact ⟨.leaf text, .refl _⟩
    | some node => simp [grow, insert] at h
  | cons s path ih =>
    rw [grow_cons] at h
    obtain ⟨o, ho, h⟩ := Option.bind_eq_some_iff.1 h
    obtain ⟨c, hc, rfl⟩ := Option.map_eq_some_iff.1 h
    obtain ⟨hgrown, hperm⟩ := ih (grown_of_open? grown ho) hc
    rw [resolve_of_open? grown ho]
    exact put_of_open? grown ho hgrown hperm

end Node

end NestedQuery
