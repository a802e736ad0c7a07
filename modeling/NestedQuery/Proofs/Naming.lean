import Mathlib.Data.List.Nodup
import NestedQuery.Schema.Read

/-!
# Fields and variants by name

A field or a variant is the first one of its name, whatever comes after it (`field?_eq`,
`readVariant_eq`). Where names are distinct it is the one of that name: `find?_of_mem`.
-/

namespace NestedQuery

def Field.schema : Field → Schema
  | .mk _ schema _ => schema

theorem find?_of_mem {α : Type} {name : α → String} {as : List α} {a : α}
    (distinct : (as.map name).Nodup) (mem : a ∈ as) : as.find? (name · = name a) = some a := by
  induction as with
  | nil => cases mem
  | cons head as ih =>
    obtain ⟨hhead, distinct⟩ := List.nodup_cons.1 distinct
    rcases List.mem_cons.1 mem with rfl | mem
    · exact List.find?_cons_of_pos (by simp)
    · have hne : name head ≠ name a := fun heq => hhead (heq ▸ List.mem_map_of_mem mem)
      rw [List.find?_cons_of_neg (by simpa using hne)]
      exact ih distinct mem

namespace Schema

theorem field?_eq (fields : List Field) (name : String) :
    field? fields name = (fields.find? (·.name = name)).map fun f => f.schema.read := by
  induction fields with
  | nil => rfl
  | cons head fields ih =>
    by_cases h : head.name = name
    · rw [List.find?_cons_of_pos (by simpa using h)]
      cases head
      exact if_pos h
    · rw [List.find?_cons_of_neg (by simpa using h), ← ih]
      cases head
      exact if_neg h

theorem field?_of_mem {fields : List Field} {name : String} {schema : Schema} {hasDefault : Bool}
    (distinct : (fields.map Field.name).Nodup) (mem : .mk name schema hasDefault ∈ fields) :
    field? fields name = some schema.read := by
  have hfind : fields.find? (·.name = name) = some (.mk name schema hasDefault) :=
    find?_of_mem distinct mem
  rw [field?_eq, hfind]
  rfl

theorem readVariantName_of_mem {variants : List Variant} {name : String}
    (distinct : (variants.map Variant.name).Nodup) (mem : .unit name ∈ variants) :
    readVariantName name variants = .ok (.unitVariant name) := by
  have hfind : variants.find? (·.name = name) = some (.unit name) := find?_of_mem distinct mem
  rw [readVariantName, hfind]

/-- Only the variant of the name counts. -/
theorem readVariant_eq (enumName : String) (known : List String) (wanted : String) (v : Value)
    (variants : List Variant) :
    readVariant enumName known wanted v variants =
      match variants.find? (·.name = wanted) with
      | some variant => readVariant enumName known wanted v [variant]
      | none => .error (.misfit (.unknownVariant wanted known)) := by
  induction variants with
  | nil => rfl
  | cons head variants ih =>
    by_cases h : head.name = wanted
    · rw [List.find?_cons_of_pos (by simpa using h)]
      subst h
      cases head <;> simp [readVariant, Variant.name]
    · rw [List.find?_cons_of_neg (by simpa using h), ← ih]
      cases head <;> exact if_neg h

theorem readVariant_of_mem {variants : List Variant} {variant : Variant}
    (distinct : (variants.map Variant.name).Nodup) (mem : variant ∈ variants) (enumName : String)
    (known : List String) (v : Value) :
    readVariant enumName known variant.name v variants =
      readVariant enumName known variant.name v [variant] := by
  rw [readVariant_eq, find?_of_mem distinct mem]

end Schema

end NestedQuery
