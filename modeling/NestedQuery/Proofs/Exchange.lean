import Mathlib.Data.List.Basic
import NestedQuery.Proofs.Conflict

/-!
# Writes in another order

Two paths meet if they come to a list together; only then does it matter to them which is written
first. Two writes that do not meet, one after the other, may trade places: both resolve as before,
and clash as before (`Trail.exchange`). A list in which all that is tied keeps its order comes about
by such trades (`Rearranged.induction`), so it is enough to know what one of them does to a run of
writes (`exchanges_swap`).
-/

namespace NestedQuery

/-- The paths have a common front and go on into a list from there, both of them. -/
def Meet (p q : List Segment) : Prop :=
  ∃ front s t, s.kind ≠ .name ∧ t.kind ≠ .name ∧ front ++ [s] <+: p ∧ front ++ [t] <+: q

theorem Meet.symm {p q : List Segment} (h : Meet p q) : Meet q p := by
  obtain ⟨front, s, t, hs, ht, hp, hq⟩ := h
  exact ⟨front, t, s, ht, hs, hq, hp⟩

theorem Meet.cons {p q : List Segment} (h : Meet p q) (first : Segment) :
    Meet (first :: p) (first :: q) := by
  obtain ⟨front, s, t, hs, ht, hp, hq⟩ := h
  exact ⟨first :: front, s, t, hs, ht, List.cons_prefix_cons.2 ⟨rfl, hp⟩,
    List.cons_prefix_cons.2 ⟨rfl, hq⟩⟩

theorem meet_of_kind {s t : Segment} (hs : s.kind ≠ .name) (ht : t.kind ≠ .name)
    (p q : List Segment) : Meet (s :: p) (t :: q) :=
  ⟨[], s, t, hs, ht, List.cons_prefix_cons.2 ⟨rfl, List.nil_prefix⟩,
    List.cons_prefix_cons.2 ⟨rfl, List.nil_prefix⟩⟩

theorem Segment.exists_of_kind_eq_name {s : Segment} (h : s.kind = .name) :
    ∃ key, s = .name key := by
  cases s with
  | name key => exact ⟨key, rfl⟩
  | index | append => cases h

namespace Trail
variable {earlier : List Trail}

/-! ### Trails that start with a name -/

/-- All trails start with a name, as they do in a map. -/
def Named (earlier : List Trail) : Prop :=
  ∀ t ∈ earlier, ∃ key rest, t = .name key :: rest

theorem named_cons {key : String} {rest : Trail} :
    Named ((.name key :: rest) :: earlier) ↔ Named earlier := by
  rw [Named, List.forall_mem_cons, and_iff_right ⟨key, rest, rfl⟩]
  rfl

theorem clash_name_cons {key : String} {new : Trail} :
    Clash earlier (.name key :: new) ↔
      ¬ Named earlier ∨ Clash (below (.name key) earlier) new := by
  have hnamed : ([] ∈ earlier ∨ ∃ old rest, old :: rest ∈ earlier ∧ old.kind ≠ .name) ↔
      ¬ Named earlier := by
    constructor
    · rintro (hnil | ⟨old, rest, hold, hkind⟩) hnamed
      · obtain ⟨_, _, h⟩ := hnamed _ hnil
        cases h
      · obtain ⟨_, _, h⟩ := hnamed _ hold
        cases h
        exact hkind rfl
    · intro h
      rw [Named] at h
      push Not at h
      obtain ⟨t, ht, hne⟩ := h
      match t with
      | [] => exact .inl ht
      | .name key :: rest => exact absurd rfl (hne key rest)
      | .index _ :: _ | .append _ :: _ => exact .inr ⟨_, _, ht, nofun⟩
  rw [clash_cons, ← hnamed, or_assoc]
  simp [Hop.kind, Hop.place]

theorem resolveFrom_name (earlier : List Trail) (key : String) (path : List Segment) :
    resolveFrom earlier [] (.name key :: path) =
      .name key :: resolveFrom (below (.name key) earlier) [] path :=
  resolveFrom_nil_cons earlier (.name key) path

theorem below_cons_self (key : String) (rest : Trail) (earlier : List Trail) :
    below (.name key) ((.name key :: rest) :: earlier) = rest :: below (.name key) earlier := by
  rw [below_cons, Hop.place, if_pos rfl]

theorem below_cons_of_ne {key other : String} (h : key ≠ other) (rest : Trail)
    (earlier : List Trail) :
    below (.name other) ((.name key :: rest) :: earlier) = below (.name other) earlier := by
  rw [below_cons, Hop.place, if_neg (mt Segment.name.inj h)]

/-- Two writes that can be made one after the other, and do not meet, can be made the other way
round as well, and take the same trails. -/
theorem exchange {p q : List Segment} (hmeet : ¬ Meet p q)
    (hp : ¬ Clash earlier (resolveFrom earlier [] p))
    (hq : ¬ Clash (resolveFrom earlier [] p :: earlier)
      (resolveFrom (resolveFrom earlier [] p :: earlier) [] q)) :
    resolveFrom (resolveFrom earlier [] p :: earlier) [] q = resolveFrom earlier [] q ∧
      resolveFrom (resolveFrom earlier [] q :: earlier) [] p = resolveFrom earlier [] p ∧
      ¬ Clash earlier (resolveFrom earlier [] q) ∧
      ¬ Clash (resolveFrom earlier [] q :: earlier) (resolveFrom earlier [] p) := by
  induction q generalizing earlier p with
  | nil => exact absurd (clash_nil.2 (List.cons_ne_nil _ _)) hq
  | cons t q ih =>
    cases p with
    | nil =>
      rw [resolveFrom_nil_cons _ t] at hq
      exact absurd (clash_cons.2 (.inl (List.mem_cons_self ..))) hq
    | cons s p =>
      -- where the paths part they go on with names, else they meet or are in conflict
      have hkinds := kind_eq_of_clear hq
      have hname : s.kind = .name := by
        by_contra hs
        exact hmeet (meet_of_kind hs (hkinds ▸ hs) p q)
      obtain ⟨key, rfl⟩ := Segment.exists_of_kind_eq_name hname
      obtain ⟨other, rfl⟩ := Segment.exists_of_kind_eq_name (hkinds.symm.trans hname)
      simp only [resolveFrom_name, clash_name_cons, named_cons, not_or, not_not] at hp hq ⊢
      obtain ⟨hnamed, hp⟩ := hp
      obtain ⟨-, hq⟩ := hq
      by_cases hkey : key = other
      · subst hkey
        simp only [below_cons_self] at hq ⊢
        obtain ⟨hq', hp', hclash, hclash'⟩ := ih (fun h => hmeet (h.cons _)) hp hq
        exact ⟨congrArg _ hq', congrArg _ hp', ⟨hnamed, hclash⟩, hnamed, hclash'⟩
      · rw [below_cons_of_ne hkey] at hq ⊢
        rw [below_cons_of_ne (Ne.symm hkey)]
        exact ⟨rfl, rfl, ⟨hnamed, hq⟩, hnamed, hp⟩

end Trail

/-! ### Runs of writes -/

namespace Tree
variable {earlier earlier' : List (Trail × String)} {writes writes' : List (KeyPath × String)}
  {write write' : KeyPath × String}

def Clashes (earlier : List (Trail × String)) (write : KeyPath × String) : Prop :=
  Trail.Clash (earlier.map Prod.fst) (Trail.resolve (earlier.map Prod.fst) write.1)

/-- After the earlier writes each of the later ones can be made in turn. -/
def Clear : List (Trail × String) → List (KeyPath × String) → Prop
  | _, [] => True
  | earlier, write :: writes => ¬ Clashes earlier write ∧ Clear (record earlier write) writes

theorem clashes_perm (h : earlier.Perm earlier') :
    Clashes earlier write ↔ Clashes earlier' write := by
  have hfst := h.map Prod.fst
  rw [Clashes, Clashes, Trail.clash_perm hfst, Trail.resolve_perm hfst]

theorem record_perm (h : earlier.Perm earlier') (write : KeyPath × String) :
    (record earlier write).Perm (record earlier' write) := by
  rw [record, record, Trail.resolve_perm (h.map Prod.fst)]
  exact h.append_right _

/-- A tree takes writes just if they are clear of those that it holds. -/
theorem Holds.exists_foldlM_iff {tree : Tree} (h : tree.Holds earlier) :
    (∃ tree', writes.foldlM (fun tree write => tree.insert write.1 write.2) tree = .ok tree') ↔
      Clear earlier writes := by
  induction writes generalizing tree earlier with
  | nil => simp [Clear, pure, Except.pure]
  | cons write writes ih =>
    simp only [List.foldlM_cons, Result.bind_eq_ok, Clear]
    constructor
    · rintro ⟨tree', next, hnext, htree'⟩
      refine ⟨?_, (ih (h.insert hnext)).1 ⟨tree', htree'⟩⟩
      rw [Clashes, ← h.grow_eq_none_iff write.1 write.2, insert_eq_ok_iff.1 hnext]
      nofun
    · rintro ⟨hclash, hclear⟩
      obtain ⟨next, hnext⟩ := h.exists_insert write.1 write.2 hclash
      obtain ⟨tree', htree'⟩ := (ih (h.insert hnext)).2 hclear
      exact ⟨tree', next, hnext, htree'⟩

theorem exists_ofWrites_iff_clear : (∃ tree, ofWrites writes = .ok tree) ↔ Clear [] writes :=
  holds_empty.exists_foldlM_iff

/-- Whatever has been written before, and in whichever order, both runs can be made or neither, and
they take the same trails. -/
def Exchanges (writes writes' : List (KeyPath × String)) : Prop :=
  ∀ earlier earlier' : List (Trail × String), earlier.Perm earlier' →
    (Clear earlier writes ↔ Clear earlier' writes') ∧
      (Clear earlier writes → (writes.foldl record earlier).Perm (writes'.foldl record earlier'))

theorem Exchanges.cons (h : Exchanges writes writes') (write : KeyPath × String) :
    Exchanges (write :: writes) (write :: writes') := by
  intro earlier earlier' hperm
  obtain ⟨hclear, hrecords⟩ := h _ _ (record_perm hperm write)
  exact ⟨and_congr (not_congr (clashes_perm hperm)) hclear, fun hwrites => hrecords hwrites.2⟩

theorem Exchanges.refl (writes : List (KeyPath × String)) : Exchanges writes writes := by
  induction writes with
  | nil => exact fun _ _ hperm => ⟨Iff.rfl, fun _ => hperm⟩
  | cons write writes ih => exact ih.cons write

theorem Exchanges.trans {writes'' : List (KeyPath × String)} (h : Exchanges writes writes')
    (h' : Exchanges writes' writes'') : Exchanges writes writes'' := by
  intro earlier earlier' hperm
  obtain ⟨hclear, hrecords⟩ := h earlier earlier (.refl _)
  obtain ⟨hclear', hrecords'⟩ := h' earlier earlier' hperm
  exact ⟨hclear.trans hclear', fun hwrites =>
    (hrecords hwrites).trans (hrecords' (hclear.1 hwrites))⟩

theorem exchange_record (hmeet : ¬ Meet write.1.steps write'.1.steps)
    (hwrite : ¬ Clashes earlier write) (hwrite' : ¬ Clashes (record earlier write) write') :
    ¬ Clashes earlier write' ∧ ¬ Clashes (record earlier write') write ∧
      (record (record earlier write) write').Perm (record (record earlier write') write) := by
  have hresolve (w v : KeyPath × String) : Trail.resolve ((record earlier w).map Prod.fst) v.1 =
      Trail.resolve (Trail.resolve (earlier.map Prod.fst) w.1 :: earlier.map Prod.fst) v.1 :=
    Trail.resolve_perm (record_fst_perm earlier w) v.1
  rw [Clashes, hresolve, Trail.clash_perm (record_fst_perm earlier write)] at hwrite'
  obtain ⟨hsame', hsame, hfirst, hsecond⟩ := Trail.exchange hmeet hwrite hwrite'
  have hkeep' : Trail.resolve ((record earlier write).map Prod.fst) write'.1 =
      Trail.resolve (earlier.map Prod.fst) write'.1 := (hresolve write write').trans hsame'
  have hkeep : Trail.resolve ((record earlier write').map Prod.fst) write.1 =
      Trail.resolve (earlier.map Prod.fst) write.1 := (hresolve write' write).trans hsame
  refine ⟨hfirst, ?_, ?_⟩
  · rw [Clashes, hkeep, Trail.clash_perm (record_fst_perm earlier write')]
    exact hsecond
  · rw [record.eq_def (record earlier write), hkeep', record.eq_def (record earlier write'), hkeep,
      record, record, List.append_assoc, List.append_assoc]
    exact (List.Perm.swap _ _ _).append_left earlier

/-- Two writes that do not meet may trade places. -/
theorem exchanges_swap (hmeet : ¬ Meet write.1.steps write'.1.steps)
    (writes : List (KeyPath × String)) :
    Exchanges (write :: write' :: writes) (write' :: write :: writes) := by
  have half {w w' : KeyPath × String} (hmeet : ¬ Meet w.1.steps w'.1.steps)
      {earlier : List (Trail × String)} (h : Clear earlier (w :: w' :: writes)) :
      Clear earlier (w' :: w :: writes) ∧
        ((w :: w' :: writes).foldl record earlier).Perm
          ((w' :: w :: writes).foldl record earlier) := by
    obtain ⟨hw, hw', hclear⟩ := h
    obtain ⟨hfirst, hsecond, hperm⟩ := exchange_record hmeet hw hw'
    obtain ⟨hclear', hrecords⟩ := Exchanges.refl writes _ _ hperm
    exact ⟨⟨hfirst, hsecond, hclear'.1 hclear⟩, hrecords hclear⟩
  have hswap : ∀ earlier, (Clear earlier (write :: write' :: writes) ↔
      Clear earlier (write' :: write :: writes)) :=
    fun earlier => ⟨fun h => (half hmeet h).1, fun h => (half (fun h => hmeet h.symm) h).1⟩
  intro earlier earlier' hperm
  obtain ⟨hclear, hrecords⟩ := Exchanges.refl (write' :: write :: writes) earlier earlier' hperm
  exact ⟨(hswap earlier).trans hclear, fun h =>
    (half hmeet h).2.trans (hrecords ((hswap earlier).1 h))⟩

end Tree

/-! ### Lists in another order -/

/-- The second list is the first in another order, in which all that is tied stands as before: its
items are numbered as they are in the first list, and those that are tied stand in the order of
their numbers. -/
def Rearranged {α : Type} (Tied : α → α → Prop) (as bs : List α) : Prop :=
  ∃ numbered : List (α × Nat), numbered.Perm as.zipIdx ∧ numbered.map Prod.fst = bs ∧
    numbered.Pairwise fun x y => Tied x.1 y.1 → x.2 < y.2

namespace Rearranged
variable {α : Type} {Tied : α → α → Prop} {as bs : List α}

theorem perm (h : Rearranged Tied as bs) : as.Perm bs := by
  obtain ⟨numbered, hperm, rfl, -⟩ := h
  have hfst := hperm.map Prod.fst
  rw [List.zipIdx_map_fst] at hfst
  exact hfst.symm

/-- What passes over from a list to one in which two neighbours that are not tied have traded places
passes over to every rearranged list. -/
theorem of_swaps {R : List α → List α → Prop} (nil : R [] [])
    (cons : ∀ a {as bs}, R as bs → R (a :: as) (a :: bs))
    (trans : ∀ {as bs cs}, R as bs → R bs cs → R as cs)
    (swap : ∀ {a b} as, ¬ Tied b a → R (a :: b :: as) (b :: a :: as))
    (h : Rearranged Tied as bs) : R as bs := by
  have refl (as : List α) : R as as := by
    induction as with
    | nil => exact nil
    | cons a as ih => exact cons a ih
  have move {a : α} (front back : List α) (hfront : ∀ b ∈ front, ¬ Tied b a) :
      R (a :: (front ++ back)) (front ++ a :: back) := by
    induction front with
    | nil => exact refl _
    | cons b front ih =>
      obtain ⟨hb, hfront⟩ := List.forall_mem_cons.1 hfront
      exact trans (swap _ hb) (cons b (ih hfront))
  obtain ⟨numbered, hperm, rfl, htied⟩ := h
  -- from the front: the first item goes past those in front of its place, none of them tied to it
  generalize 0 = start at hperm
  induction as generalizing start numbered with
  | nil =>
    rw [List.zipIdx_nil, List.perm_nil] at hperm
    rw [hperm]
    exact nil
  | cons a as ih =>
    rw [List.zipIdx_cons] at hperm
    obtain ⟨front, back, rfl⟩ := List.append_of_mem (hperm.mem_iff.2 (List.mem_cons_self ..))
    have hrest : (front ++ back).Perm (as.zipIdx (start + 1)) :=
      (List.perm_middle.symm.trans hperm).cons_inv
    obtain ⟨hfront, hback, hcross⟩ := List.pairwise_append.1 htied
    have hrestTied : (front ++ back).Pairwise fun x y => Tied x.1 y.1 → x.2 < y.2 :=
      htied.sublist ((List.Sublist.refl front).append (List.sublist_cons_self _ back))
    have hpast : ∀ b ∈ front.map Prod.fst, ¬ Tied b a := by
      rintro _ hb htied
      obtain ⟨x, hx, rfl⟩ := List.mem_map.1 hb
      have hlt : x.2 < start := hcross x hx (a, start) (List.mem_cons_self ..) htied
      have hle := List.le_snd_of_mem_zipIdx (hrest.mem_iff.1 (List.mem_append_left back hx))
      omega
    have hih := cons a (ih _ hrestTied _ hrest)
    rw [List.map_append] at hih ⊢
    exact trans hih (move _ _ hpast)

end Rearranged

end NestedQuery
