/-! # Entries in order

The entries of a map are a list of key-value pairs in order of insertion, without repeated keys:
`put` replaces a value in place or adds an entry at the end; `lookup_put` and `keys_put` say what it
does, `put_of_lookup_eq_none` and `exists_of_lookup_eq_some` where.
`update?` takes the new value from the present one, and `update?_eq_map_put` says that it is a
look-up and a `put`. Without repeated keys a look-up finds just the entries (`mem_of_lookup`,
`lookup_of_mem`, `lookup_of_not_mem_keys`), whatever their order (`lookup_perm`). -/

namespace NestedQuery.Entries
variable {α β : Type}

def keys (entries : List (String × α)) : List String :=
  entries.map Prod.fst

def put (key : String) (value : α) : List (String × α) → List (String × α)
  | [] => [(key, value)]
  | entry :: entries =>
    if entry.1 = key then (key, value) :: entries else entry :: put key value entries

/-- Replaces the value under a key by what `f` makes of it, where a new entry comes from `none`. -/
def update? (key : String) (f : Option α → Option α) :
    List (String × α) → Option (List (String × α))
  | [] => (f none).map fun value => [(key, value)]
  | (other, value) :: entries =>
    if other = key then (f (some value)).map fun value => (key, value) :: entries
    else (update? key f entries).map ((other, value) :: ·)

theorem update?_eq_map_put (key : String) (f : Option α → Option α)
    (entries : List (String × α)) :
    update? key f entries = (f (entries.lookup key)).map fun value => put key value entries := by
  induction entries with
  | nil => simp [update?, put]
  | cons entry entries ih =>
    rcases entry with ⟨other, value⟩
    by_cases h : other = key
    · subst h; simp [update?, put]
    · simp [update?, put, h, List.lookup_cons, beq_eq_false_iff_ne.2 (Ne.symm h), ih,
        Function.comp_def]

/-- Collects pairs; a repeated key keeps its first position and takes the last value. -/
def ofList (pairs : List (String × α)) : List (String × α) :=
  pairs.foldl (fun entries pair => put pair.1 pair.2 entries) []

theorem lookup_put_self (key : String) (value : α) (entries : List (String × α)) :
    (put key value entries).lookup key = some value := by
  induction entries with
  | nil => simp [put]
  | cons entry entries ih =>
    rcases entry with ⟨k, v⟩
    by_cases h : k = key
    · simp [put, h]
    · simp only [put, h, if_false]
      rw [List.lookup_cons, ih]
      simp [beq_eq_false_iff_ne.2 (Ne.symm h)]

theorem lookup_put_of_ne {key other : String} (h : other ≠ key) (value : α)
    (entries : List (String × α)) :
    (put key value entries).lookup other = entries.lookup other := by
  induction entries with
  | nil => simp [put, List.lookup_cons, beq_eq_false_iff_ne.2 h]
  | cons entry entries ih =>
    rcases entry with ⟨k, v⟩
    by_cases hk : k = key
    · subst hk; simp [put, List.lookup_cons, beq_eq_false_iff_ne.2 h]
    · simp [put, hk, List.lookup_cons, ih]

theorem lookup_put (key other : String) (value : α) (entries : List (String × α)) :
    (put key value entries).lookup other =
      if key = other then some value else entries.lookup other := by
  split
  · rename_i h
    rw [← h, lookup_put_self]
  · rename_i h
    exact lookup_put_of_ne (Ne.symm h) value entries

theorem keys_put (key : String) (value : α) (entries : List (String × α)) :
    keys (put key value entries) =
      if key ∈ keys entries then keys entries else keys entries ++ [key] := by
  induction entries with
  | nil => simp [put, keys]
  | cons entry entries ih =>
    rcases entry with ⟨k, v⟩
    by_cases hk : k = key
    · subst hk; simp [put, keys]
    · simp only [keys] at ih
      by_cases hm : key ∈ entries.map Prod.fst <;> simp [put, keys, hk, ih, hm, Ne.symm hk]

/-! ## Looking keys up -/

variable {entries : List (String × α)} {key : String} {value : α}

theorem mem_of_lookup (h : entries.lookup key = some value) : (key, value) ∈ entries := by
  obtain ⟨front, back, rfl, -⟩ := List.lookup_eq_some_iff.1 h
  exact List.mem_append_cons_self

theorem lookup_of_mem (distinct : (keys entries).Nodup) (h : (key, value) ∈ entries) :
    entries.lookup key = some value := by
  obtain ⟨front, back, rfl⟩ := List.append_of_mem h
  refine List.lookup_eq_some_iff.2 ⟨front, back, rfl, fun entry hentry => bne_iff_ne.2 ?_⟩
  rw [keys, List.map_append, List.nodup_append] at distinct
  exact (distinct.2.2 _ (List.mem_map_of_mem hentry) _ (List.mem_cons_self ..)).symm

theorem not_mem_keys_of_lookup (h : entries.lookup key = none) : key ∉ keys entries := by
  intro hkey
  obtain ⟨entry, hentry, rfl⟩ := List.mem_map.1 hkey
  simpa using List.lookup_eq_none_iff.1 h entry hentry

theorem lookup_of_not_mem_keys (h : key ∉ keys entries) : entries.lookup key = none := by
  refine List.lookup_eq_none_iff.2 fun entry hentry => ?_
  simpa using fun heq : key = entry.1 => h (List.mem_map.2 ⟨entry, hentry, heq.symm⟩)

/-- The order of entries does not matter to a look-up. -/
theorem lookup_perm {other : List (String × α)} (h : entries.Perm other)
    (distinct : (keys entries).Nodup) (key : String) : entries.lookup key = other.lookup key := by
  cases hother : other.lookup key with
  | none =>
    have hkey := not_mem_keys_of_lookup hother
    exact lookup_of_not_mem_keys fun hmem => hkey ((h.map Prod.fst).mem_iff.1 hmem)
  | some value => exact lookup_of_mem distinct (h.mem_iff.2 (mem_of_lookup hother))

theorem put_of_lookup_eq_none (h : entries.lookup key = none) (value : α) :
    put key value entries = entries ++ [(key, value)] := by
  induction entries with
  | nil => rfl
  | cons entry entries ih =>
    rcases entry with ⟨other, old⟩
    by_cases hk : other = key
    · simp [hk] at h
    · rw [List.lookup_cons, beq_eq_false_iff_ne.2 (Ne.symm hk)] at h
      rw [put, if_neg hk, ih h, List.cons_append]

theorem put_ne_nil (key : String) (value : α) (entries : List (String × α)) :
    put key value entries ≠ [] := by
  cases entries with
  | nil => simp [put]
  | cons entry entries => rw [put]; split <;> simp

theorem put_put (key : String) (first last : α) (entries : List (String × α)) :
    put key last (put key first entries) = put key last entries := by
  induction entries with
  | nil => simp [put]
  | cons entry entries ih =>
    by_cases h : entry.1 = key
    · simp [put, h]
    · simp [put, h, ih]

theorem exists_of_lookup_eq_some {old : α} (h : entries.lookup key = some old) :
    ∃ front back, entries = front ++ (key, old) :: back ∧
      ∀ value, put key value entries = front ++ (key, value) :: back := by
  obtain ⟨front, back, rfl, hfront⟩ := List.lookup_eq_some_iff.1 h
  refine ⟨front, back, rfl, fun value => ?_⟩
  clear h
  induction front with
  | nil => exact if_pos rfl
  | cons entry front ih =>
    obtain ⟨hkey, hfront⟩ := List.forall_mem_cons.1 hfront
    have hne : entry.1 ≠ key := (bne_iff_ne.1 hkey).symm
    rw [List.cons_append, put, if_neg hne, ih hfront, List.cons_append]

end NestedQuery.Entries
