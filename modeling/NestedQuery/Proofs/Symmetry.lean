import NestedQuery.Proofs.Reordering

/-!
# Two writes in either order

Two writes that a tree takes each alone, it takes one after the other in both orders or in neither:
where the second goes on below the first, the first would have gone on below the second
(`exists_open?_put`, `exists_grow_swap`). If both orders are taken and the paths come to no append
together, each write takes the same trail in both (`resolveFrom_of_clear`), and the documents are
equal: `insert_symmetric`.
-/

namespace NestedQuery

namespace Node
variable {s t : Segment} {o o' again : Opening} {node? : Option Node} {c : Node}
  {items : Array Node} {position : Nat}

/-! ### Two slots of one container -/

/-- Whatever is put into a slot is a child of the container, addressed as its others are. -/
theorem kind_eq_of_open?_put (h : open? s node? = some o)
    (hagain : open? t (some (o.put c)) = some again) : s.kind = t.kind := by
  have fits := fits_of_open? h
  have hmem : (o.hop, c) ∈ (o.put c).children := by
    cases fits.opens with
    | there _ _ put => rw [put]; simp
    | new _ _ put => rw [put]; simp
  have hkind := (fits_of_open? hagain).kind _ hmem
  rw [fits.hop, Segment.kind_resolve] at hkind
  exact hkind

/-- An indexed list is open at every position up to its end. -/
theorem exists_open?_index (h : position ≤ items.size) :
    ∃ o, open? (.index position) (some (.list .indexed items)) = some o ∧
      o.child = items[position]? := by
  by_cases hlt : position < items.size
  · exact ⟨_, dif_pos hlt, (Array.getElem?_eq_getElem hlt).symm⟩
  · have heq : position = items.size := by omega
    refine ⟨_, (dif_neg hlt).trans (if_pos heq), ?_⟩
    rw [Array.getElem?_eq_none (by omega)]

/-- Only the position that is opened is changed or added. -/
theorem of_open?_index (h : open? (.index position) (some (.list .indexed items)) = some o)
    (c : Node) :
    position ≤ items.size ∧ ∃ items' : Array Node, o.put c = .list .indexed items' ∧
      items.size ≤ items'.size ∧
        ∀ i ≤ items.size, items'[i]? = if position = i then some c else items[i]? := by
  rw [open?] at h
  split_ifs at h with hlt heq
  · cases h
    exact ⟨Nat.le_of_lt hlt, _, rfl, (Array.size_set hlt).ge, fun i _ => Array.getElem?_set hlt⟩
  · cases h
    refine ⟨Nat.le_of_eq heq, _, rfl, by simp, fun i _ => ?_⟩
    rw [Array.getElem?_push, heq]
    simp only [eq_comm]

/-- What has been put into a slot is found by the segment that leads there, unless it is an append:
that leads to a new slot. All other slots hold what they have held. -/
theorem exists_open?_put (h : open? s node? = some o) (h' : open? t node? = some o')
    (hkind : s.kind = t.kind) (c : Node) :
    ∃ again, open? t (some (o.put c)) = some again ∧
      again.child = if s = t ∧ s ≠ .append then some c else o'.child := by
  match node?, s, t with
  | none, .name key, .name other =>
    cases h
    cases h'
    exact ⟨_, rfl, by simpa [Entries.put] using Entries.lookup_put key other c []⟩
  | none, .index i, .index j =>
    rw [open?] at h h'
    split_ifs at h h' with hi hj
    cases h
    cases h'
    subst hi hj
    exact ⟨_, rfl, rfl⟩
  | some (.map entries), .name key, .name other =>
    cases h
    cases h'
    exact ⟨_, rfl, by simpa using Entries.lookup_put key other c entries⟩
  | none, .append, .append | some (.list .append items), .append, .append =>
    cases h
    cases h'
    exact ⟨_, rfl, rfl⟩
  | some (.list .indexed items), .index i, .index j =>
    obtain ⟨-, items', hput, hsize, hitems'⟩ := of_open?_index h c
    obtain ⟨hj, -⟩ := of_open?_index h' c
    obtain ⟨again, hagain, hchild⟩ := exists_open?_index (hj.trans hsize)
    obtain ⟨_, hold, hchild'⟩ := exists_open?_index hj
    cases h'.symm.trans hold
    refine ⟨again, by rw [hput, hagain], ?_⟩
    rw [hchild, hitems' j hj, hchild']
    simp

/-! ### Two writes below one node -/

theorem eq_none_of_grow_nil {text : String} {node : Node} (h : grow text [] node? = some node) :
    node? = none := by
  cases node? with
  | none => rfl
  | some old => cases h

theorem grow_leaf (text old : String) (path : List Segment) :
    grow text path (some (.leaf old)) = none := by
  cases path with
  | nil => rfl
  | cons s path => cases s <;> rfl

/-- Of two writes that can be made alone, the first can be made after the second if the second can
be made after the first. -/
theorem exists_grow_swap {u v : String} {p q : List Segment} {a b : Node}
    (hp : grow u p node? = some a) (hq : grow v q node? = some b)
    (h : ∃ both, grow v q (some a) = some both) : ∃ both, grow u p (some b) = some both := by
  obtain ⟨both, h⟩ := h
  induction p generalizing node? q a b both with
  | nil =>
    -- the first write has left a text, which takes no other
    obtain rfl := eq_none_of_grow_nil hp
    cases hp
    cases (grow_leaf v u q).symm.trans h
  | cons s p ih =>
    cases q with
    | nil => cases eq_none_of_grow_nil h
    | cons t q =>
      rw [grow_cons] at hp hq h
      obtain ⟨o, ho, hp⟩ := Option.bind_eq_some_iff.1 hp
      obtain ⟨c, hc, rfl⟩ := Option.map_eq_some_iff.1 hp
      obtain ⟨o', ho', hq⟩ := Option.bind_eq_some_iff.1 hq
      obtain ⟨c', hc', rfl⟩ := Option.map_eq_some_iff.1 hq
      obtain ⟨again, hagain, h⟩ := Option.bind_eq_some_iff.1 h
      obtain ⟨d, hd, -⟩ := Option.map_eq_some_iff.1 h
      have hkind := kind_eq_of_open?_put ho hagain
      obtain ⟨_, hagain', hchild⟩ := exists_open?_put ho ho' hkind c
      cases hagain.symm.trans hagain'
      obtain ⟨first, hfirst, hchild'⟩ := exists_open?_put ho' ho hkind.symm c'
      obtain ⟨d', hd'⟩ : ∃ d', grow u p first.child = some d' := by
        by_cases hsame : s = t ∧ s ≠ .append
        -- both go on in one slot, each below what the other has put there
        · obtain ⟨rfl, hs⟩ := hsame
          cases ho.symm.trans ho'
          rw [if_pos ⟨rfl, hs⟩] at hchild hchild'
          rw [hchild] at hd
          rw [hchild']
          exact ih hc hc' d hd
        · have hother : ¬ (t = s ∧ t ≠ .append) := by
            rintro ⟨rfl, ht⟩
            exact hsame ⟨rfl, ht⟩
          rw [if_neg hother] at hchild'
          exact ⟨c, hchild' ▸ hc⟩
      refine ⟨first.put d', ?_⟩
      rw [grow_cons, hfirst, Option.bind_some, hd']
      rfl

end Node

/-! ### Paths without a common append -/

/-- The paths have a common front that ends in an append. -/
def ShareAppend (p q : List Segment) : Prop :=
  ∃ front, front ++ [.append] <+: p ∧ front ++ [.append] <+: q

theorem ShareAppend.cons {p q : List Segment} (h : ShareAppend p q) (first : Segment) :
    ShareAppend (first :: p) (first :: q) := by
  obtain ⟨front, hp, hq⟩ := h
  exact ⟨first :: front, List.cons_prefix_cons.2 ⟨rfl, hp⟩, List.cons_prefix_cons.2 ⟨rfl, hq⟩⟩

theorem ShareAppend.symm {p q : List Segment} (h : ShareAppend p q) : ShareAppend q p := by
  obtain ⟨front, hp, hq⟩ := h
  exact ⟨front, hq, hp⟩

theorem shareAppend_of_append (p q : List Segment) :
    ShareAppend (.append :: p) (.append :: q) :=
  ⟨[], List.cons_prefix_cons.2 ⟨rfl, List.nil_prefix⟩,
    List.cons_prefix_cons.2 ⟨rfl, List.nil_prefix⟩⟩

theorem not_shareAppend_of_not_mem {p q : List Segment} (h : .append ∉ p) : ¬ ShareAppend p q := by
  rintro ⟨front, hp, -⟩
  exact h (hp.subset (by simp))

namespace Segment

/-- A segment that is no append resolves to one hop, whatever the container holds. -/
theorem exists_hop {s : Segment} (h : s ≠ .append) :
    ∃ hop : Hop, hop.place = s ∧ ∀ slots, s.resolve slots = hop := by
  cases s with
  | name key => exact ⟨.name key, rfl, fun _ => rfl⟩
  | index position => exact ⟨.index position, rfl, fun _ => rfl⟩
  | append => exact absurd rfl h

theorem kind_eq_append {s : Segment} : s.kind = .append ↔ s = .append := by
  cases s <;> simp [kind]

end Segment

namespace Trail
variable {earlier : List Trail}

theorem resolveFrom_of_hop {s : Segment} {hop : Hop} (hplace : hop.place = s)
    (hresolve : ∀ slots, s.resolve slots = hop) (earlier : List Trail) (path : List Segment) :
    resolveFrom earlier [] (s :: path) = hop :: resolveFrom (below s earlier) [] path := by
  rw [resolveFrom_nil_cons, hresolve, hplace]

/-- A write resolves as before once another has been made, if it can still be made and the two
share no append. -/
theorem resolveFrom_of_clear {p q : List Segment} (hshare : ¬ ShareAppend p q)
    (h : ¬ Clash (resolveFrom earlier [] p :: earlier)
      (resolveFrom (resolveFrom earlier [] p :: earlier) [] q)) :
    resolveFrom (resolveFrom earlier [] p :: earlier) [] q = resolveFrom earlier [] q := by
  induction q generalizing earlier p with
  | nil => rfl
  | cons t q ih =>
    cases p with
    | nil =>
      rw [resolveFrom_nil_cons _ t] at h
      exact absurd (clash_cons.2 (.inl (List.mem_cons_self ..))) h
    | cons s p =>
      have hkind := kind_eq_of_clear h
      have hs : s ≠ .append := by
        rintro rfl
        obtain rfl := Segment.kind_eq_append.1 hkind.symm
        exact hshare (shareAppend_of_append p q)
      have ht : t ≠ .append := by
        rintro rfl
        exact hs (Segment.kind_eq_append.1 hkind)
      obtain ⟨hop, hplace, hresolve⟩ := Segment.exists_hop hs
      obtain ⟨hop', hplace', hresolve'⟩ := Segment.exists_hop ht
      rw [resolveFrom_of_hop hplace hresolve, resolveFrom_of_hop hplace' hresolve'] at h ⊢
      rw [resolveFrom_of_hop hplace' hresolve']
      congr 1
      have hclear := mt Clash.of_below h
      rw [hplace', below_cons, hplace] at hclear
      rw [below_cons, hplace]
      by_cases hst : s = t
      · rw [if_pos hst] at hclear ⊢
        rw [hst] at hclear ⊢
        exact ih (fun hshare' => hshare (hst ▸ hshare'.cons s)) hclear
      · rw [if_neg hst]

end Trail

/-! ### Two writes into a tree -/

namespace Tree
variable {tree one two both : Tree} {p q : KeyPath} {u v : String}

theorem Holds.resolve_record {earlier : List (Trail × String)} (h : tree.Holds earlier)
    (hp : tree.insert p u = .ok one) (hq : one.insert q v = .ok both)
    (hshare : ¬ ShareAppend p.steps q.steps) :
    Trail.resolve ((record earlier (p, u)).map Prod.fst) q =
      Trail.resolve (earlier.map Prod.fst) q := by
  have hclear : ¬ Trail.Clash ((record earlier (p, u)).map Prod.fst)
      (Trail.resolve ((record earlier (p, u)).map Prod.fst) q) := by
    rw [← (h.insert hp).grow_eq_none_iff q v, insert_eq_ok_iff.1 hq]
    nofun
  have hperm := record_fst_perm earlier (p, u)
  rw [Trail.clash_perm hperm, Trail.resolve_perm hperm] at hclear
  rw [Trail.resolve_perm hperm]
  exact Trail.resolveFrom_of_clear hshare hclear

theorem exists_insert_swap (hp : tree.insert p u = .ok one) (hq : tree.insert q v = .ok two)
    (h : ∃ both, one.insert q v = .ok both) : ∃ both, two.insert p u = .ok both := by
  rw [exists_insert_iff, node?_of_insert hp] at h
  rw [exists_insert_iff, node?_of_insert hq]
  exact Node.exists_grow_swap (insert_eq_ok_iff.1 hp) (insert_eq_ok_iff.1 hq) h

/-- Two writes that a tree takes each alone, it takes one after the other in both orders or in
neither. In both orders they leave equal documents, unless they append to one list. -/
theorem insert_symmetric {writes : List (KeyPath × String)} (h : ofWrites writes = .ok tree)
    (hp : tree.insert p u = .ok one) (hq : tree.insert q v = .ok two) :
    ((∃ both, one.insert q v = .ok both) ↔ ∃ both, two.insert p u = .ok both) ∧
    (¬ ShareAppend p.steps q.steps → ∀ both both',
      one.insert q v = .ok both → two.insert p u = .ok both' →
        both.finish.same both'.finish = true) := by
  refine ⟨⟨exists_insert_swap hp hq, exists_insert_swap hq hp⟩, ?_⟩
  intro hshare both both' hboth hboth'
  have holds := holds_of_ofWrites h
  have hq' := holds.resolve_record hp hboth hshare
  have hp' := holds.resolve_record hq hboth' fun hshare' => hshare hshare'.symm
  refine same_finish ((holds.insert hp).insert hboth) ((holds.insert hq).insert hboth') ?_
  rw [record.eq_def (record _ (p, u)), record.eq_def (record _ (q, v)), hq', hp', record, record,
    List.append_assoc, List.append_assoc]
  exact (List.Perm.swap _ _ _).append_left _

/-- Each of the two writes makes a new item, which the other then finds. -/
theorem insert_symmetric_at_list_end :
    let tree : Tree := ⟨[("a", .list .indexed #[.leaf "1"])]⟩
    let one : Tree := ⟨[("a", .list .indexed #[.leaf "1", .map [("u", .leaf "2")]])]⟩
    let two : Tree := ⟨[("a", .list .indexed #[.leaf "1", .map [("v", .leaf "3")]])]⟩
    let p : KeyPath := ⟨"a", [.index 1, .name "u"]⟩
    let q : KeyPath := ⟨"a", [.index 1, .name "v"]⟩
    ofWrites [(⟨"a", [.index 0]⟩, "1")] = .ok tree ∧ tree.insert p "2" = .ok one ∧
      tree.insert q "3" = .ok two ∧ ¬ ShareAppend p.steps q.steps ∧
      ∃ both both', one.insert q "3" = .ok both ∧ two.insert p "2" = .ok both' ∧
        both.finish.same both'.finish = true := by
  intro tree one two p q
  have h : ofWrites [(⟨"a", [.index 0]⟩, "1")] = .ok tree := rfl
  have hp : tree.insert p "2" = .ok one := rfl
  have hq : tree.insert q "3" = .ok two := rfl
  have hshare : ¬ ShareAppend p.steps q.steps := not_shareAppend_of_not_mem (by decide)
  obtain ⟨hiff, hsame⟩ := insert_symmetric h hp hq
  obtain ⟨both, hboth⟩ : ∃ both, one.insert q "3" = .ok both := ⟨_, rfl⟩
  obtain ⟨both', hboth'⟩ := hiff.1 ⟨both, hboth⟩
  exact ⟨h, hp, hq, hshare, both, both', hboth, hboth', hsame hshare both both' hboth hboth'⟩

/-- Two appends to one list leave its items in the order of writing. -/
example :
    Tree.finish <$> ofWrites [(⟨"a", [.append]⟩, "1"), (⟨"a", [.append]⟩, "2")] =
        .ok ⟨[("a", .list [.scalar "1", .scalar "2"])]⟩ ∧
      Tree.finish <$> ofWrites [(⟨"a", [.append]⟩, "2"), (⟨"a", [.append]⟩, "1")] =
        .ok ⟨[("a", .list [.scalar "2", .scalar "1"])]⟩ := by
  constructor <;> cbv

end Tree

end NestedQuery
