import Mathlib.Data.List.Forall2
import NestedQuery.Data.Encode
import NestedQuery.Document.Control
import NestedQuery.Schema

/-!
# Data of a schema

`Schema.Holds` says which data a schema has. Not all of it survives the way through a document: an
option is told from its value by the empty text, and no key stands twice. `Data.Portable` is what it
takes at one place of the data, `Data.Everywhere` says so for all places.
-/

namespace NestedQuery

/-- The data that a map may have as keys. -/
inductive Schema.HoldsKey : Schema → Data → Prop
  | bool (b : Bool) : HoldsKey .bool (.bool b)
  | int (n : FixedInt) : HoldsKey (.int n.type) (.int n)
  | char (c : Char) : HoldsKey .char (.char c)
  | string (s : String) : HoldsKey .string (.text s)
  | enum {name variant : String} {variants : List Variant}
      (distinct : (variants.map Variant.name).Nodup) (mem : .unit variant ∈ variants) :
      HoldsKey (.enum name variants) (.unitVariant variant)

mutual

/-- The data of a schema without floating point numbers. Fields and variants have distinct names. -/
inductive Schema.Holds : Schema → Data → Prop
  | bool (b : Bool) : Schema.Holds .bool (.bool b)
  | int (n : FixedInt) : Schema.Holds (.int n.type) (.int n)
  | char (c : Char) : Schema.Holds .char (.char c)
  | string (s : String) : Schema.Holds .string (.text s)
  | bytes (bs : List UInt8) : Schema.Holds .bytes (.bytes bs)
  | unit : Schema.Holds .unit .unit
  | unitStruct (name : String) : Schema.Holds (.unitStruct name) .unit
  | absent (inner : Schema) : Schema.Holds (.option inner) .absent
  | present {inner : Schema} {data : Data} (h : Schema.Holds inner data) :
      Schema.Holds (.option inner) (.present data)
  | newtype (name : String) {inner : Schema} {data : Data} (h : Schema.Holds inner data) :
      Schema.Holds (.newtype name inner) (.newtype data)
  | seq {item : Schema} {items : List Data} (h : ∀ data ∈ items, Schema.Holds item data) :
      Schema.Holds (.seq item) (.seq items)
  | tuple {schemas : List Schema} {items : List Data}
      (h : List.Forall₂ Schema.Holds schemas items) : Schema.Holds (.tuple schemas) (.seq items)
  | tupleStruct (name : String) {schemas : List Schema} {items : List Data}
      (h : List.Forall₂ Schema.Holds schemas items) :
      Schema.Holds (.tupleStruct name schemas) (.seq items)
  | map {key value : Schema} {entries : List (Data × Data)}
      (keys : ∀ e ∈ entries, key.HoldsKey e.1) (values : ∀ e ∈ entries, Schema.Holds value e.2) :
      Schema.Holds (.map key value) (.map entries)
  | struct (name : String) (strict : Bool) {fields : List Field} {values : List (String × Data)}
      (distinct : (fields.map Field.name).Nodup) (h : List.Forall₂ Field.Holds fields values) :
      Schema.Holds (.struct name fields strict) (.struct values)
  | enum (name : String) {variants : List Variant} {variant : Variant} {data : Data}
      (distinct : (variants.map Variant.name).Nodup) (mem : variant ∈ variants)
      (h : variant.Holds data) : Schema.Holds (.enum name variants) data

/-- A field with a default that is left out is no part of the data, not an absent one. -/
inductive Field.Holds : Field → String × Data → Prop
  | mk (name : String) {schema : Schema} {hasDefault : Bool} {data : Data}
      (h : schema.Holds data) (there : hasDefault = true → data ≠ .absent) :
      Field.Holds (.mk name schema hasDefault) (name, data)

inductive Variant.Holds : Variant → Data → Prop
  | unit (name : String) : Variant.Holds (.unit name) (.unitVariant name)
  | newtype (name : String) {inner : Schema} {data : Data} (h : inner.Holds data) :
      Variant.Holds (.newtype name inner) (.newtypeVariant name data)
  | tuple (name : String) {schemas : List Schema} {items : List Data}
      (h : List.Forall₂ Schema.Holds schemas items) :
      Variant.Holds (.tuple name schemas) (.tupleVariant name items)
  | struct (name : String) {fields : List Field} {values : List (String × Data)}
      (distinct : (fields.map Field.name).Nodup) (h : List.Forall₂ Field.Holds fields values) :
      Variant.Holds (.struct name fields) (.structVariant name values)

end

namespace Data

/-- The data one level below, the keys of maps apart. -/
def children : Data → List Data
  | .present inner | .newtype inner | .newtypeVariant _ inner => [inner]
  | .seq items | .tupleVariant _ items => items
  | .map entries => entries.map Prod.snd
  | .struct fields | .structVariant _ fields => fields.map Prod.snd
  | _ => []

/-- `P` holds of the data and of all data below it. -/
inductive Everywhere (P : Data → Prop) : Data → Prop
  | intro {data : Data} (here : P data) (below : ∀ c ∈ data.children, Everywhere P c) :
      Everywhere P data

namespace Everywhere
variable {P : Data → Prop} {data c : Data}

theorem here (h : data.Everywhere P) : P data := by cases h; assumption

theorem child (h : data.Everywhere P) (hc : c ∈ data.children) : c.Everywhere P := by
  cases h with
  | intro _ below => exact below c hc

end Everywhere

/-- Data that a document can hold without loss: no text or name has a control character, bytes are
the UTF-8 of a text, the keys of a map are distinct texts, and nothing is absent or taken for absent
where its place would not be filled again. -/
def Portable : Data → Prop
  | .present inner => inner.encode ≠ .ok none ∧ inner.encode ≠ .ok (some (.scalar ""))
  | .newtype inner => inner ≠ .absent
  | .char c => hasControl (String.singleton c) = false
  | .text s => hasControl s = false
  | .bytes bs => ∃ text, Utf8.encode text = bs ∧ hasControl text = false
  | .map entries =>
    (entries.map fun e => e.1.encodeKey).Nodup ∧
      ∀ e ∈ entries, e.2 ≠ .absent ∧ ∀ key, e.1.encodeKey = .ok key → hasControl key = false
  | .struct fields => ∀ f ∈ fields, hasControl f.1 = false
  | .unitVariant variant | .newtypeVariant variant _ | .tupleVariant variant _ =>
    hasControl variant = false
  | .structVariant variant fields =>
    hasControl variant = false ∧ ∀ f ∈ fields, hasControl f.1 = false
  | _ => True

/-- What can stand for a whole document: a map, a struct or a variant that carries data. -/
def isTop : Data → Bool
  | .map _ | .struct _ | .newtypeVariant _ _ | .tupleVariant _ _ | .structVariant _ _ => true
  | _ => false

end Data

end NestedQuery
