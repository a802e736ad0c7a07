import Mathlib.Data.List.Dedup
import NestedQuery.Proofs.Leaves

/-!
# Addresses of writes

A trail is a key path with its appends resolved: an append names the position that is free once the
earlier writes have been made. `Clash` says, of the trails of earlier writes alone, that a new one
cannot be made after them. Both follow the first step of a trail into the trails `below` it
(`resolveFrom_nil_cons`, `clash_cons`), and neither depends on the order of the earlier writes.
-/

namespace NestedQuery

inductive Segment.Kind where
  | name
  | index
  | append
  deriving DecidableEq, Repr

def Segment.kind : Segment → Segment.Kind
  | .name _ => .name
  | .index _ => .index
  | .append => .append

/-- A resolved segment: an append knows the position it takes. -/
inductive Hop where
  | name (key : String)
  | index (position : Nat)
  | append (position : Nat)
  deriving DecidableEq, Repr

namespace Hop

/-- The slot of a container that a hop leads to, however it is written. -/
def place : Hop → Segment
  | .name key => .name key
  | .index position => .index position
  | .append position => .index position

def kind : Hop → Segment.Kind
  | .name _ => .name
  | .index _ => .index
  | .append _ => .append

end Hop

/-- Resolves a segment in a container of so many slots. -/
def Segment.resolve (slots : Nat) : Segment → Hop
  | .name key => .name key
  | .index position => .index position
  | .append => .append slots

@[simp] theorem Segment.kind_resolve (slots : Nat) (s : Segment) :
    (s.resolve slots).kind = s.kind := by
  cases s <;> rfl

/-- The resolved segments of a key path, the root first. -/
abbrev Trail := List Hop

namespace Trail

def address (t : Trail) : List Segment :=
  t.map Hop.place

/-- The hop that a trail takes from the address `q`, if it gets further than that. -/
def next? : Trail → List Segment → Option Hop
  | hop :: _, [] => some hop
  | hop :: t, s :: q => if hop.place = s then next? t q else none
  | [], _ => none

/-- The number of distinct slots that trails have taken in the container at `q`. -/
def slots (earlier : List Trail) (q : List Segment) : Nat :=
  ((earlier.filterMap (next? · q)).map Hop.place).dedup.length

/-- Resolves the rest of a path that has led to `q`: an append takes the position that is the number
of slots taken before. -/
def resolveFrom (earlier : List Trail) (q : List Segment) : List Segment → Trail
  | [] => []
  | s :: path =>
    let hop := s.resolve (slots earlier q)
    hop :: resolveFrom earlier (q ++ [hop.place]) path

def resolve (earlier : List Trail) (path : KeyPath) : Trail :=
  resolveFrom earlier [] path.steps

/-- Why a write cannot be made after earlier ones. -/
inductive Clash (earlier : List Trail) (new : Trail) : Prop
  /-- There is a text on the way, or what is there already takes the place of the new text. -/
  | overlap {t : Trail} (ht : t ∈ earlier)
      (h : t.address <+: new.address ∨ new.address <+: t.address)
  /-- An earlier write has addressed the children of a container in another way. -/
  | kind {t : Trail} {q : List Segment} {old hop : Hop} (ht : t ∈ earlier)
      (hold : t.next? q = some old) (hnew : new.next? q = some hop) (hne : old.kind ≠ hop.kind)
  /-- An index skips a position. -/
  | gap {q : List Segment} {position : Nat} (hnew : new.next? q = some (.index position))
      (h : slots earlier q < position)

/-! ### One step down -/

/-- The rest of a trail that starts at the slot `s`. -/
def tail? (s : Segment) : Trail → Option Trail
  | hop :: t => if hop.place = s then some t else none
  | [] => none

/-- What the trails that start at the slot `s` do from there. -/
def below (s : Segment) (earlier : List Trail) : List Trail :=
  earlier.filterMap (tail? s)

theorem tail?_eq_some {s : Segment} {t rest : Trail} :
    t.tail? s = some rest ↔ ∃ hop, hop.place = s ∧ t = hop :: rest := by
  cases t with
  | nil => simp [tail?]
  | cons hop t => simp [tail?, and_comm, eq_comm]

theorem mem_below {s : Segment} {earlier : List Trail} {rest : Trail} :
    rest ∈ below s earlier ↔ ∃ hop, hop.place = s ∧ hop :: rest ∈ earlier := by
  simp only [below, List.mem_filterMap, tail?_eq_some]
  constructor
  · rintro ⟨_, ht, hop, hs, rfl⟩
    exact ⟨hop, hs, ht⟩
  · rintro ⟨hop, hs, ht⟩
    exact ⟨_, ht, hop, hs, rfl⟩

theorem next?_cons (t : Trail) (s : Segment) (q : List Segment) :
    t.next? (s :: q) = (t.tail? s).bind (next? · q) := by
  cases t with
  | nil => rfl
  | cons hop t => simp only [next?, tail?]; split <;> rfl

theorem slots_cons (earlier : List Trail) (s : Segment) (q : List Segment) :
    slots earlier (s :: q) = slots (below s earlier) q := by
  simp only [slots, below, List.filterMap_filterMap, next?_cons]

theorem resolveFrom_cons (earlier : List Trail) (s : Segment) (q path : List Segment) :
    resolveFrom earlier (s :: q) path = resolveFrom (below s earlier) q path := by
  induction path generalizing q with
  | nil => rfl
  | cons s' path ih => simp only [resolveFrom, slots_cons, List.cons_append, ih]

theorem below_cons (hop : Hop) (rest : Trail) (s : Segment) (earlier : List Trail) :
    below s ((hop :: rest) :: earlier) =
      if hop.place = s then rest :: below s earlier else below s earlier := by
  by_cases h : hop.place = s <;> simp [below, tail?, h]

/-- The rest of a path is resolved among the trails below its first hop. -/
theorem resolveFrom_nil_cons (earlier : List Trail) (s : Segment) (path : List Segment) :
    resolveFrom earlier [] (s :: path) =
      s.resolve (slots earlier []) ::
        resolveFrom (below (s.resolve (slots earlier [])).place earlier) [] path := by
  rw [resolveFrom, List.nil_append, resolveFrom_cons]

variable {earlier : List Trail}

theorem clash_nil : Clash earlier [] ↔ earlier ≠ [] := by
  constructor
  · rintro (⟨ht, -⟩ | ⟨-, -, hnew, -⟩ | ⟨hnew, -⟩)
    · exact List.ne_nil_of_mem ht
    · cases hnew
    · cases hnew
  · intro h
    obtain ⟨t, ht⟩ := List.exists_mem_of_ne_nil _ h
    exact .overlap ht (.inr List.nil_prefix)

theorem next?_cons_eq_some {t : Trail} {s : Segment} {q : List Segment} {hop : Hop} :
    t.next? (s :: q) = some hop ↔
      ∃ first rest, first.place = s ∧ t = first :: rest ∧ next? rest q = some hop := by
  rw [next?_cons, Option.bind_eq_some_iff]
  constructor
  · rintro ⟨rest, hrest, hnext⟩
    obtain ⟨first, hplace, rfl⟩ := tail?_eq_some.1 hrest
    exact ⟨first, rest, hplace, rfl, hnext⟩
  · rintro ⟨first, rest, hplace, rfl, hnext⟩
    exact ⟨rest, tail?_eq_some.2 ⟨first, hplace, rfl⟩, hnext⟩

theorem Clash.of_below {hop : Hop} {new : Trail} (h : Clash (below hop.place earlier) new) :
    Clash earlier (hop :: new) := by
  have lift : ∀ q, next? (hop :: new) (hop.place :: q) = next? new q := fun q => if_pos rfl
  cases h with
  | overlap ht h =>
    obtain ⟨old, hplace, ht⟩ := mem_below.1 ht
    refine .overlap ht ?_
    simpa only [address, List.map_cons, List.cons_prefix_cons, hplace, true_and] using h
  | kind ht hold hnew hne =>
    obtain ⟨old, hplace, ht⟩ := mem_below.1 ht
    exact .kind ht (next?_cons_eq_some.2 ⟨old, _, hplace, rfl, hold⟩) ((lift _).trans hnew) hne
  | gap hnew h =>
    refine .gap (q := hop.place :: _) ((lift _).trans hnew) ?_
    rwa [slots_cons]

/-- A write clashes if a text or a container addressed in another way is in its place, if it skips a
position, or if it clashes further down. -/
theorem clash_cons {hop : Hop} {new : Trail} :
    Clash earlier (hop :: new) ↔
      [] ∈ earlier ∨ (∃ old rest, old :: rest ∈ earlier ∧ old.kind ≠ hop.kind) ∨
        (∃ position, hop = .index position ∧ slots earlier [] < position) ∨
          Clash (below hop.place earlier) new := by
  constructor
  -- a reason at the first hop is one of the first three, any other stands below its slot as well
  · rintro (@⟨t, ht, h⟩ | @⟨t, q, old, _, ht, hold, hnew, hne⟩ | @⟨q, position, hnew, h⟩)
    · cases t with
      | nil => exact .inl ht
      | cons old rest =>
        have hplace : old.place = hop.place ∧
            (address rest <+: address new ∨ address new <+: address rest) := by
          simpa only [address, List.map_cons, List.cons_prefix_cons, eq_comm (a := hop.place),
            ← and_or_left] using h
        exact .inr <| .inr <| .inr <| .overlap (mem_below.2 ⟨old, hplace.1, ht⟩) hplace.2
    · match t, q with
      | [], [] => cases hold
      | old :: rest, [] =>
        cases hold
        cases hnew
        exact .inr <| .inl ⟨_, _, ht, hne⟩
      | t, s :: q =>
        obtain ⟨old, rest, hplace, rfl, hlater⟩ := next?_cons_eq_some.1 hold
        obtain ⟨_, _, rfl, ⟨⟩, hnew⟩ := next?_cons_eq_some.1 hnew
        exact .inr <| .inr <| .inr <| .kind (mem_below.2 ⟨old, hplace, ht⟩) hlater hnew hne
    · cases q with
      | nil => cases hnew; exact .inr <| .inr <| .inl ⟨position, rfl, h⟩
      | cons s q =>
        obtain ⟨_, _, rfl, ⟨⟩, hnew⟩ := next?_cons_eq_some.1 hnew
        rw [slots_cons] at h
        exact .inr <| .inr <| .inr <| .gap hnew h
  · rintro (ht | ⟨old, rest, ht, hne⟩ | ⟨position, rfl, h⟩ | hclash)
    · exact .overlap ht (.inl List.nil_prefix)
    · exact .kind (q := []) ht rfl rfl hne
    · exact .gap (q := []) rfl h
    · exact hclash.of_below

/-- A write that can be made right after another addresses the children of a container as that one
does. -/
theorem kind_eq_of_clear {s t : Segment} {p q : List Segment}
    (h : ¬ Clash (resolveFrom earlier [] (s :: p) :: earlier)
      (resolveFrom (resolveFrom earlier [] (s :: p) :: earlier) [] (t :: q))) :
    s.kind = t.kind := by
  by_contra hne
  rw [resolveFrom_nil_cons _ s, resolveFrom_nil_cons _ t] at h
  refine h (clash_cons.2 (.inr (.inl ⟨_, _, List.mem_cons_self .., ?_⟩)))
  rw [Segment.kind_resolve, Segment.kind_resolve]
  exact hne

/-! ### The order of earlier writes -/

variable {earlier' : List Trail}

theorem slots_perm (h : earlier.Perm earlier') (q : List Segment) :
    slots earlier q = slots earlier' q :=
  (((h.filterMap _).map _).dedup).length_eq

theorem resolveFrom_perm (h : earlier.Perm earlier') (q path : List Segment) :
    resolveFrom earlier q path = resolveFrom earlier' q path := by
  induction path generalizing q with
  | nil => rfl
  | cons s path ih => simp only [resolveFrom, slots_perm h, ih]

theorem resolve_perm (h : earlier.Perm earlier') (path : KeyPath) :
    resolve earlier path = resolve earlier' path :=
  resolveFrom_perm h [] path.steps

theorem clash_perm (h : earlier.Perm earlier') {new : Trail} :
    Clash earlier new ↔ Clash earlier' new := by
  have half : ∀ {a b : List Trail}, a.Perm b → Clash a new → Clash b new := by
    rintro a b h (⟨ht, hoverlap⟩ | ⟨ht, hold, hnew, hne⟩ | ⟨hnew, hgap⟩)
    · exact .overlap (h.mem_iff.1 ht) hoverlap
    · exact .kind (h.mem_iff.1 ht) hold hnew hne
    · exact .gap hnew (slots_perm h _ ▸ hgap)
  exact ⟨half h, half h.symm⟩

end Trail

end NestedQuery
