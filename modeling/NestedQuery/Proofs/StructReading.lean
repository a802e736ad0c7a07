import NestedQuery.Proofs.Naming
import NestedQuery.Proofs.Result

/-!
# What a struct is read from

The entries of a struct are read one after another, but what comes of it only depends on whether
each of them can be read (`exists_readEntries_iff`) and on the data found under each field
(`lookup_readEntries`). Entries that agree in both are read as the same struct:
`toOption_read_struct`.
-/

namespace NestedQuery.Schema

section Entries
variable {field? : String → Option (Value → Result Data)} {known : List String} {strict : Bool}
  {entries : List (String × Value)} {found : List (String × Data)}

/-- An entry that does not stand in the way: the value of a field is read, and any other entry is
left alone unless the struct is strict. -/
def Readable (field? : String → Option (Value → Result Data)) (strict : Bool)
    (entry : String × Value) : Prop :=
  match field? entry.1 with
  | some read => ∃ data, read entry.2 = .ok data
  | none => strict = false

/-- The data that the entries have for a name. -/
def reading (field? : String → Option (Value → Result Data)) (entries : List (String × Value))
    (name : String) : Option Data := do
  let read ← field? name
  let value ← entries.lookup name
  (read value).toOption

theorem readEntries_cons_of_field {name : String} {value : Value} {read : Value → Result Data}
    (h : field? name = some read) :
    readEntries field? known strict ((name, value) :: entries) = do
      let data ← read value
      return (name, data) :: (← readEntries field? known strict entries) := by
  rw [readEntries]
  simp only [h]

theorem readEntries_cons_of_none {name : String} {value : Value} (h : field? name = none) :
    readEntries field? known strict ((name, value) :: entries) =
      if strict then .error (.misfit (.unknownField name known))
      else readEntries field? known strict entries := by
  rw [readEntries]
  simp only [h]

theorem exists_readEntries_iff :
    (∃ found, readEntries field? known strict entries = .ok found) ↔
      ∀ e ∈ entries, Readable field? strict e := by
  induction entries with
  | nil => simp [readEntries]
  | cons entry entries ih =>
    obtain ⟨name, value⟩ := entry
    rw [List.forall_mem_cons, ← ih, Readable]
    cases hfield : field? name with
    | some read =>
      rw [readEntries_cons_of_field hfield]
      constructor
      · rintro ⟨_, h⟩
        obtain ⟨data, hdata, h⟩ := Result.bind_eq_ok.1 h
        obtain ⟨rest, hrest, -⟩ := Result.bind_eq_ok.1 h
        exact ⟨⟨data, hdata⟩, rest, hrest⟩
      · rintro ⟨⟨data, hdata⟩, rest, hrest⟩
        exact ⟨(name, data) :: rest, by rw [hdata, hrest]; rfl⟩
    | none =>
      rw [readEntries_cons_of_none hfield]
      cases strict <;> simp

theorem lookup_readEntries (h : readEntries field? known strict entries = .ok found)
    (name : String) : found.lookup name = reading field? entries name := by
  induction entries generalizing found with
  | nil =>
    cases h
    cases hfield : field? name <;> simp [reading, hfield]
  | cons entry entries ih =>
    obtain ⟨other, value⟩ := entry
    cases hfield : field? other with
    | some read =>
      rw [readEntries_cons_of_field hfield] at h
      obtain ⟨data, hdata, h⟩ := Result.bind_eq_ok.1 h
      obtain ⟨rest, hrest, h⟩ := Result.bind_eq_ok.1 h
      cases h
      rw [List.lookup_cons, reading, List.lookup_cons]
      by_cases heq : name = other
      · subst heq
        simp [hfield, hdata, Except.toOption]
      · rw [beq_eq_false_iff_ne.2 heq]
        exact ih hrest
    | none =>
      rw [readEntries_cons_of_none hfield] at h
      split at h
      · cases h
      rw [ih h, reading, reading, List.lookup_cons]
      by_cases heq : name = other
      · subst heq
        simp [hfield]
      · rw [beq_eq_false_iff_ne.2 heq]

/-! ### Entries that differ in one place -/

variable {key name : String} {v w : Value}

/-- An entry that is no field is not found under any name. -/
theorem reading_insert (h : field? key = none) (front back : List (String × Value)) (v : Value)
    (name : String) :
    reading field? (front ++ (key, v) :: back) name = reading field? (front ++ back) name := by
  rw [reading, reading, List.lookup_append, List.lookup_append, List.lookup_cons]
  by_cases heq : name = key
  · subst heq
    simp [h]
  · rw [beq_eq_false_iff_ne.2 heq]

theorem forall_readable_insert (h : field? key = none) (front back : List (String × Value))
    (v : Value) :
    (∀ e ∈ front ++ (key, v) :: back, Readable field? false e) ↔
      ∀ e ∈ front ++ back, Readable field? false e := by
  have hentry : Readable field? false (key, v) := by simp [Readable, h]
  rw [List.forall_mem_append, List.forall_mem_append, List.forall_mem_cons,
    and_iff_right hentry]

theorem reading_replace (h : ∀ read, field? key = some read → (read v).toOption = (read w).toOption)
    (front back : List (String × Value)) (name : String) :
    reading field? (front ++ (key, v) :: back) name =
      reading field? (front ++ (key, w) :: back) name := by
  simp only [reading, List.lookup_append, List.lookup_cons]
  by_cases heq : name = key
  · subst heq
    cases hfield : field? name with
    | none => rfl
    | some read => cases front.lookup name <;> simp [h read hfield]
  · rw [beq_eq_false_iff_ne.2 heq]

theorem forall_readable_replace
    (h : ∀ read, field? key = some read → (read v).toOption = (read w).toOption)
    (front back : List (String × Value)) :
    (∀ e ∈ front ++ (key, v) :: back, Readable field? strict e) ↔
      ∀ e ∈ front ++ (key, w) :: back, Readable field? strict e := by
  have hentry : Readable field? strict (key, v) ↔ Readable field? strict (key, w) := by
    rw [Readable, Readable]
    cases hfield : field? key with
    | none => rfl
    | some read => exact exists_congr (Result.toOption_eq_iff.1 (h read hfield))
  rw [List.forall_mem_append, List.forall_mem_append, List.forall_mem_cons, List.forall_mem_cons,
    hentry]

end Entries

theorem settle_congr {found found' : List (String × Data)} (fields : List Field)
    (h : ∀ name, found.lookup name = found'.lookup name) :
    settle found fields = settle found' fields := by
  induction fields with
  | nil => rfl
  | cons field fields ih =>
    obtain ⟨name, schema, hasDefault⟩ := field
    rw [settle.eq_def, settle.eq_def]
    simp only [h, ih]

/-- Entries are read as the same struct if they can be read together and have the same data for
each name. -/
theorem toOption_read_struct (name : String) (fields : List Field) (strict : Bool)
    {as bs : List (String × Value)}
    (readable : (∀ e ∈ as, Readable (field? fields) strict e) ↔
      ∀ e ∈ bs, Readable (field? fields) strict e)
    (same : ∀ key, reading (field? fields) as key = reading (field? fields) bs key) :
    ((Schema.struct name fields strict).read (.map as)).toOption =
      ((Schema.struct name fields strict).read (.map bs)).toOption := by
  have hsome :
      (∃ found, readEntries (field? fields) (fields.map Field.name) strict as = .ok found) ↔
        ∃ found, readEntries (field? fields) (fields.map Field.name) strict bs = .ok found :=
    exists_readEntries_iff.trans (readable.trans exists_readEntries_iff.symm)
  simp only [read, entriesOf, Value.entries?, Result.ok_bind]
  cases has : readEntries (field? fields) (fields.map Field.name) strict as with
  | ok found =>
    obtain ⟨found', hbs⟩ := hsome.1 ⟨found, has⟩
    rw [hbs, Result.ok_bind, Result.ok_bind]
    have hfound : ∀ key, found.lookup key = found'.lookup key := fun key => by
      rw [lookup_readEntries has, lookup_readEntries hbs, same]
    rw [settle_congr fields hfound]
  | error e =>
    cases hbs : readEntries (field? fields) (fields.map Field.name) strict bs with
    | ok found' =>
      obtain ⟨found, h⟩ := hsome.2 ⟨found', hbs⟩
      rw [has] at h
      cases h
    | error e' => rfl

end NestedQuery.Schema
