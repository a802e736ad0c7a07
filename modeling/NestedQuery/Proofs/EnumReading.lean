import NestedQuery.Proofs.Naming

/-!
# How enums are read

An enum is read from a text that names a variant without data, or from a map. Of a map only the
first entry counts (`read_enum_map`): it names the variant and holds its data. So a map with one
entry stands for one variant, but further entries are no reason to refuse it, and of two entries
that each name a variant the first one is taken. `read_enum` says so at every place of a document,
and of map keys.
-/

namespace NestedQuery.Schema
variable {enumName : String} {variants : List Variant} {data : Data}

theorem readVariantName_eq_ok_iff {text : String} :
    readVariantName text variants = .ok data ↔
      variants.find? (·.name = text) = some (.unit text) ∧ data = .unitVariant text := by
  rw [readVariantName]
  cases hfind : variants.find? (·.name = text) with
  | none => simp
  | some variant =>
    have hname : variant.name = text := by simpa using List.find?_some hfind
    cases variant with
    | unit name =>
      obtain rfl : name = text := hname
      simp [eq_comm]
    | newtype | tuple | struct => simp [invalidType]

/-- What a variant is read from does not depend on the others. -/
theorem readVariant_singleton {variant : Variant} {wanted : String} (h : variant.name = wanted)
    (known known' : List String) (v : Value) :
    readVariant enumName known wanted v [variant] =
      readVariant enumName known' wanted v [variant] := by
  cases variant <;> exact (if_pos h).trans (if_pos h).symm

theorem read_enum_map (enumName : String) (variants : List Variant) (entry : String × Value)
    (rest : List (String × Value)) :
    (Schema.enum enumName variants).read (.map (entry :: rest)) =
      readVariant enumName (variants.map Variant.name) entry.1 entry.2 variants := by
  rw [read]

/-- The first entry is read as the only one, and its variant as the only variant. -/
theorem read_enum_map_eq_ok_iff {entry : String × Value} {rest : List (String × Value)} :
    (Schema.enum enumName variants).read (.map (entry :: rest)) = .ok data ↔
      ∃ variant, variants.find? (·.name = entry.1) = some variant ∧
        (Schema.enum enumName [variant]).read (.map [entry]) = .ok data := by
  simp only [read_enum_map]
  rw [readVariant_eq]
  cases hfind : variants.find? (·.name = entry.1) with
  | none => exact iff_of_false nofun (by simp)
  | some variant =>
    have hname : variant.name = entry.1 := by simpa using List.find?_some hfind
    simp [readVariant_singleton hname (variants.map Variant.name) [variant.name]]

/-- An enum is read from a text that names a variant without data, or from a map whose first entry
names a variant and holds its data, and then whatever the further entries are. A whole document is
read as a map, and a map key as a text. -/
theorem read_enum (enumName : String) (variants : List Variant) :
    (∀ value data, (Schema.enum enumName variants).read value = .ok data ↔
      (∃ text, value = .scalar text ∧ variants.find? (·.name = text) = some (.unit text) ∧
        data = .unitVariant text) ∨
      ∃ entry rest variant, value = .map (entry :: rest) ∧
        variants.find? (·.name = entry.1) = some variant ∧
        (Schema.enum enumName [variant]).read (.map [entry]) = .ok data) ∧
    (∀ entry rest, (Schema.enum enumName variants).read (.map (entry :: rest)) =
      (Schema.enum enumName variants).read (.map [entry])) ∧
    (∀ entries, (Schema.enum enumName variants).readTop entries =
      (Schema.enum enumName variants).read (.map entries)) ∧
    ∀ text, (Schema.enum enumName variants).readKey text =
      (Schema.enum enumName variants).read (.scalar text) := by
  refine ⟨fun value data => ?_, fun entry rest => ?_, fun entries => rfl, fun text => ?_⟩
  · cases value with
    | scalar text =>
      rw [read, readVariantName_eq_ok_iff]
      simp
    | list items =>
      rw [read]
      exact iff_of_false nofun (by simp)
    | map entries =>
      cases entries with
      | nil =>
        rw [read]
        exact iff_of_false nofun (by simp)
      | cons entry rest =>
        rw [read_enum_map_eq_ok_iff]
        simp
  · rw [read_enum_map, read_enum_map]
  · rw [readKey, read]

/-- A second entry is not refused, and which variant is read depends on the order. -/
theorem not_single_entry_of_read_enum :
    ¬ ∀ (enumName : String) (variants : List Variant) (value : Value) (data : Data),
      (Schema.enum enumName variants).read value = .ok data →
        (∃ text, value = .scalar text ∧ .unit text ∈ variants) ∨
        ∃ variant ∈ variants, ∃ payload, value = .map [(variant.name, payload)] := by
  intro h
  have hread : (Schema.enum "E" [.unit "a", .newtype "b" .string]).read
      (.map [("b", .scalar "x"), ("a", .scalar "")]) = .ok (.newtypeVariant "b" (.text "x")) := rfl
  rcases h _ _ _ _ hread with ⟨_, ⟨⟩, -⟩ | ⟨_, -, _, h⟩
  simp at h

example : (Schema.enum "E" [.unit "a", .newtype "b" .string]).read
    (.map [("a", .scalar ""), ("b", .scalar "x")]) = .ok (.unitVariant "a") := rfl

end NestedQuery.Schema
