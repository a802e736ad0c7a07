import Mathlib.Data.List.Nodup
import NestedQuery.Data.Encode
import NestedQuery.Proofs.Result

/-!
# The entries of maps made from data

A map is made from its entries one after another. `Encodes` says what an entry is encoded as, and
`Refused` why it is, given the entries before it. `encode_ownEntries`: data with entries of its own
becomes a map of those that have a value, in order and under distinct keys, or fails with the first
entry that is refused.
-/

namespace NestedQuery.Data

/-- What an entry is encoded as: its key as a text, and its value if it has one. -/
structure Encodes (entry : Data × Data) (pair : String × Option Value) : Prop where
  key : entry.1.encodeKey = .ok pair.1
  value : entry.2.encode = .ok pair.2

/-- The entries that have a value. -/
def kept (entries : List (String × Option Value)) : List (String × Value) :=
  entries.filterMap fun e => e.2.map fun v => (e.1, v)

/-- Why an entry is refused after those in `done`. Its key comes before its value, and that its key
is taken only matters if it has a value. -/
inductive Refused (done : List (String × Value)) (entry : Data × Data) : Error → Prop
  | key {e : Error} (h : entry.1.encodeKey = .error e) : Refused done entry e
  | value {key : String} {e : Error} (hkey : entry.1.encodeKey = .ok key)
      (h : entry.2.encode = .error e) : Refused done entry e
  | repeated {key : String} {v : Value} (h : Encodes entry (key, some v))
      (taken : key ∈ Entries.keys done) : Refused done entry (.duplicateKey key)

/-! ### One entry -/

section Entry
variable {key : String} {value : Option Value} {entry : Data × Data}
  {done next : List (String × Value)}

theorem kept_append (front back : List (String × Option Value)) :
    kept (front ++ back) = kept front ++ kept back :=
  List.filterMap_append

theorem keys_kept_sublist (entries : List (String × Option Value)) :
    (Entries.keys (kept entries)).Sublist (entries.map Prod.fst) := by
  induction entries with
  | nil => exact .slnil
  | cons e entries ih =>
    rcases e with ⟨key, _ | v⟩
    · exact ih.cons key
    · exact ih.cons_cons key

theorem addEntry_of_not_mem {v : Value} (h : key ∉ Entries.keys done) :
    addEntry key (some v) done = .ok (done ++ [(key, v)]) := by
  rw [addEntry, Entries.lookup_of_not_mem_keys h]
  rfl

theorem addEntry_of_mem {v : Value} (h : key ∈ Entries.keys done) :
    addEntry key (some v) done = .error (.duplicateKey key) := by
  have hlookup : (done.lookup key).isSome = true := by
    cases hvalue : done.lookup key with
    | none => exact absurd h (Entries.not_mem_keys_of_lookup hvalue)
    | some _ => rfl
  rw [addEntry, if_pos hlookup]

theorem nodup_keys_append_singleton {v : Value} :
    (Entries.keys (done ++ [(key, v)])).Nodup ↔
      (Entries.keys done).Nodup ∧ key ∉ Entries.keys done := by
  rw [Entries.keys, List.map_append, List.map_singleton, List.nodup_append_comm,
    List.singleton_append, List.nodup_cons, and_comm]
  rfl

/-- An entry without a value is left out, any other is added under a new key. -/
theorem addEntry_eq_ok_iff (distinct : (Entries.keys done).Nodup) :
    addEntry key value done = .ok next ↔
      next = done ++ kept [(key, value)] ∧ (Entries.keys next).Nodup := by
  cases value with
  | none =>
    have hkept : done ++ kept [(key, none)] = done := List.append_nil done
    rw [hkept, addEntry, Except.ok.injEq, eq_comm]
    refine (and_iff_left_of_imp ?_).symm
    rintro rfl
    exact distinct
  | some v =>
    by_cases h : key ∈ Entries.keys done
    · rw [addEntry_of_mem h]
      refine iff_of_false nofun ?_
      rintro ⟨rfl, hnext⟩
      exact (nodup_keys_append_singleton.1 hnext).2 h
    · rw [addEntry_of_not_mem h, Except.ok.injEq, eq_comm]
      refine (and_iff_left_of_imp ?_).symm
      rintro rfl
      exact nodup_keys_append_singleton.2 ⟨distinct, h⟩

theorem addEntry_eq_error_iff {e : Error} :
    addEntry key value done = .error e ↔
      ∃ v, value = some v ∧ key ∈ Entries.keys done ∧ e = .duplicateKey key := by
  cases value with
  | none => exact iff_of_false nofun nofun
  | some v =>
    by_cases h : key ∈ Entries.keys done
    · rw [addEntry_of_mem h]
      simp [h, eq_comm]
    · rw [addEntry_of_not_mem h]
      simp [h]

/-- Adds one entry to those already encoded. -/
def encodeEntry (done : List (String × Value)) (entry : Data × Data) :
    Result (List (String × Value)) := do
  let key ← encodeKey entry.1
  let value ← encode entry.2
  addEntry key value done

theorem encodeEntry_eq_ok_iff (distinct : (Entries.keys done).Nodup) :
    encodeEntry done entry = .ok next ↔
      ∃ pair, Encodes entry pair ∧ next = done ++ kept [pair] ∧ (Entries.keys next).Nodup := by
  rw [encodeEntry]
  constructor
  · intro h
    obtain ⟨key, hkey, h⟩ := Result.bind_eq_ok.1 h
    obtain ⟨value, hvalue, h⟩ := Result.bind_eq_ok.1 h
    exact ⟨(key, value), ⟨hkey, hvalue⟩, (addEntry_eq_ok_iff distinct).1 h⟩
  · rintro ⟨⟨key, value⟩, h, hnext⟩
    rw [h.key, Result.ok_bind, h.value, Result.ok_bind]
    exact (addEntry_eq_ok_iff distinct).2 hnext

theorem encodeEntry_eq_error_iff {e : Error} :
    encodeEntry done entry = .error e ↔ Refused done entry e := by
  rw [encodeEntry]
  constructor
  · intro h
    rcases Result.bind_eq_error.1 h with h | ⟨key, hkey, h⟩
    · exact .key h
    rcases Result.bind_eq_error.1 h with h | ⟨value, hvalue, h⟩
    · exact .value hkey h
    obtain ⟨v, rfl, taken, rfl⟩ := addEntry_eq_error_iff.1 h
    exact .repeated ⟨hkey, hvalue⟩ taken
  · intro h
    cases h with
    | key h => rw [h, Result.error_bind]
    | value hkey h => rw [hkey, Result.ok_bind, h, Result.error_bind]
    | repeated h taken => rw [h.key, Result.ok_bind, h.value, Result.ok_bind, addEntry_of_mem taken]

end Entry

/-! ### All entries -/

theorem nodup_keys_nil : (Entries.keys ([] : List (String × Value))).Nodup :=
  List.nodup_nil

section Entries
variable {entries : List (Data × Data)} {done next : List (String × Value)}

theorem kept_cons (pair : String × Option Value) (encoded : List (String × Option Value)) :
    done ++ kept (pair :: encoded) = done ++ kept [pair] ++ kept encoded := by
  rw [List.append_assoc, ← kept_append, List.singleton_append]

theorem encodeEntries_eq_foldlM (done : List (String × Value)) (entries : List (Data × Data)) :
    encodeEntries done entries = entries.foldlM encodeEntry done := by
  induction entries generalizing done with
  | nil => rfl
  | cons entry entries ih =>
    rw [encodeEntries, List.foldlM_cons, encodeEntry]
    simp only [ih, bind_assoc]

theorem encodeFields_eq (done : List (String × Value)) (fields : List (String × Data)) :
    encodeFields done fields = encodeEntries done (fields.map fun f => (.text f.1, f.2)) := by
  induction fields generalizing done with
  | nil => rfl
  | cons f fields ih =>
    rw [List.map_cons, encodeFields, encodeEntries]
    simp only [encodeKey, Result.ok_bind, ih]

/-- Entries are encoded if each of them is, and those with a value have distinct keys. -/
theorem encodeEntries_eq_ok_iff (distinct : (Entries.keys done).Nodup) :
    encodeEntries done entries = .ok next ↔
      ∃ encoded, List.Forall₂ Encodes entries encoded ∧ next = done ++ kept encoded ∧
        (Entries.keys next).Nodup := by
  rw [encodeEntries_eq_foldlM]
  induction entries generalizing done next with
  | nil =>
    constructor
    · rintro ⟨⟩
      exact ⟨[], .nil, (List.append_nil _).symm, distinct⟩
    · rintro ⟨_, ⟨⟩, rfl, -⟩
      exact congrArg Except.ok (List.append_nil _).symm
  | cons entry entries ih =>
    rw [List.foldlM_cons, Result.bind_eq_ok]
    constructor
    · rintro ⟨mid, hmid, h⟩
      obtain ⟨pair, hpair, rfl, hdistinct⟩ := (encodeEntry_eq_ok_iff distinct).1 hmid
      obtain ⟨encoded, hencoded, rfl, hnext⟩ := (ih hdistinct).1 h
      exact ⟨pair :: encoded, .cons hpair hencoded, (kept_cons pair encoded).symm, hnext⟩
    · rintro ⟨_, h, rfl, hnext⟩
      cases h with
      | @cons _ pair _ encoded hpair hencoded =>
        rw [kept_cons] at hnext ⊢
        -- what is there after the first entry is part of what is there at the end
        have hmid : (Entries.keys (done ++ kept [pair])).Nodup :=
          hnext.sublist ((List.sublist_append_left ..).map _)
        refine ⟨_, (encodeEntry_eq_ok_iff distinct).2 ⟨pair, hpair, rfl, hmid⟩, ?_⟩
        exact (ih hmid).2 ⟨encoded, hencoded, rfl, hnext⟩

/-- Entries fail with the first one that is refused. -/
theorem encodeEntries_eq_error_iff (distinct : (Entries.keys done).Nodup) {e : Error} :
    encodeEntries done entries = .error e ↔
      ∃ front entry back encoded, entries = front ++ entry :: back ∧
        List.Forall₂ Encodes front encoded ∧ (Entries.keys (done ++ kept encoded)).Nodup ∧
        Refused (done ++ kept encoded) entry e := by
  rw [encodeEntries_eq_foldlM, Result.foldlM_eq_error_iff]
  simp only [← encodeEntries_eq_foldlM, encodeEntry_eq_error_iff, encodeEntries_eq_ok_iff distinct]
  constructor
  · rintro ⟨front, entry, back, _, rfl, ⟨encoded, hencoded, rfl, hdistinct⟩, h⟩
    exact ⟨front, entry, back, encoded, rfl, hencoded, hdistinct, h⟩
  · rintro ⟨front, entry, back, encoded, rfl, hencoded, hdistinct, h⟩
    exact ⟨front, entry, back, _, rfl, ⟨encoded, hencoded, rfl, hdistinct⟩, h⟩

end Entries

/-! ### Data with entries -/

/-- The entries of a map, or the fields of a struct or of a struct variant under their names. -/
def ownEntries? : Data → Option (List (Data × Data))
  | .map entries => some entries
  | .struct fields | .structVariant _ fields => some (fields.map fun f => (.text f.1, f.2))
  | _ => none

/-- The value that data with entries of its own puts them into: a variant is a map around theirs. -/
def ofOwnEntries : Data → List (String × Value) → Value
  | .structVariant variant _, entries => .map [(variant, .map entries)]
  | _, entries => .map entries

theorem encode_eq_ofOwnEntries {data : Data} {entries : List (Data × Data)}
    (h : data.ownEntries? = some entries) :
    data.encode = (fun done => some (data.ofOwnEntries done)) <$> encodeEntries [] entries := by
  cases data with
  | map | struct | structVariant =>
    cases h
    simp only [encode, encodeFields_eq, ofOwnEntries]
    cases encodeEntries [] _ <;> rfl
  | _ => cases h

/-- A map keeps the entries that have a value, in their order and under distinct keys, and fails
with the first entry that is refused. -/
theorem encode_ownEntries {data : Data} {entries : List (Data × Data)}
    (h : data.ownEntries? = some entries) :
    (∀ value, data.encode = .ok value ↔
      ∃ encoded, List.Forall₂ Encodes entries encoded ∧ (Entries.keys (kept encoded)).Nodup ∧
        value = some (data.ofOwnEntries (kept encoded))) ∧
    ∀ e, data.encode = .error e ↔
      ∃ front entry back encoded, entries = front ++ entry :: back ∧
        List.Forall₂ Encodes front encoded ∧ (Entries.keys (kept encoded)).Nodup ∧
        Refused (kept encoded) entry e := by
  rw [encode_eq_ofOwnEntries h]
  constructor
  · intro value
    rw [Result.map_eq_ok]
    simp only [encodeEntries_eq_ok_iff nodup_keys_nil, List.nil_append]
    constructor
    · rintro ⟨_, ⟨encoded, hencoded, rfl, hdistinct⟩, rfl⟩
      exact ⟨encoded, hencoded, hdistinct, rfl⟩
    · rintro ⟨encoded, hencoded, hdistinct, rfl⟩
      exact ⟨_, ⟨encoded, hencoded, rfl, hdistinct⟩, rfl⟩
  · intro e
    rw [Result.map_eq_error, encodeEntries_eq_error_iff nodup_keys_nil]
    simp only [List.nil_append]

/-- An absent entry leaves its key free, keys of different kinds may be one text, and what comes
after the entry that is refused does not count. -/
theorem encode_ownEntries_of_shared_key :
    let one : Data := .int ⟨⟨false, .w8⟩, 1, by decide⟩
    let entries : List (Data × Data) := [(one, .absent), (.text "1", .text "a"), (one, .absent)]
    (structVariant "V" [("1", .absent), ("1", .text "a"), ("1", .absent)]).encode =
        .ok (some (.map [("V", .map [("1", .scalar "a")])])) ∧
      (map (entries ++ [(.char '1', .seq []), (.unit, .unit)])).encode =
        .error (.duplicateKey "1") := by
  intro one entries
  have hone : one.encodeKey = .ok "1" := rfl
  constructor
  · refine ((encode_ownEntries rfl).1 _).2
      ⟨[("1", none), ("1", some (.scalar "a")), ("1", none)], ?_, by decide, rfl⟩
    exact .cons ⟨rfl, rfl⟩ (.cons ⟨rfl, rfl⟩ (.cons ⟨rfl, rfl⟩ .nil))
  · refine ((encode_ownEntries rfl).2 _).2 ⟨entries, (.char '1', .seq []), [(.unit, .unit)],
      [("1", none), ("1", some (.scalar "a")), ("1", none)], rfl, ?_, by decide, ?_⟩
    · exact .cons ⟨hone, rfl⟩ (.cons ⟨rfl, rfl⟩ (.cons ⟨hone, rfl⟩ .nil))
    · exact .repeated (v := .list []) ⟨rfl, rfl⟩ (by decide)

end NestedQuery.Data
