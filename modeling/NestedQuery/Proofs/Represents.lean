import NestedQuery.Proofs.DataQuery
import NestedQuery.Proofs.MapEntries
import NestedQuery.Proofs.MapKeys
import NestedQuery.Proofs.StructReading

/-!
# Data and the values it becomes

`Represents` says that data becomes a value and is read back from it, `Fills` the same of a place
that an absent option leaves to an empty text. One kind of data after another is represented if its
parts are: items (`represents_seq`, `ItemsFit`), the entries of a map (`represents_map`), the fields
of a struct, of which the absent ones are left out (`FieldsFit`), and variants (`VariantFits`).
-/

namespace NestedQuery

/-- The value that the data becomes, from which the schema reads the data again. -/
structure Represents (s : Schema) (data : Data) (v : Value) : Prop where
  encode : data.encode = .ok (some v)
  printable : v.Everywhere Value.Printable
  read : s.read v = .ok data

/-- The value in a place for the data that must be filled. -/
structure Fills (s : Schema) (data : Data) (v : Value) : Prop where
  encode : ∃ value, data.encode = .ok value ∧ Data.fill value = v
  printable : v.Everywhere Value.Printable
  read : s.read v = .ok data

variable {s : Schema} {data : Data}

theorem Represents.fills {v : Value} (h : Represents s data v) : Fills s data v :=
  ⟨⟨some v, h.encode, rfl⟩, h.printable, h.read⟩

theorem Represents.ne_absent {v : Value} (h : Represents s data v) : data ≠ .absent := by
  rintro rfl
  cases h.encode

theorem represents_scalar {text : String} (encode : data.encode = .ok (some (.scalar text)))
    (control : hasControl text = false) (read : s.read (.scalar text) = .ok data) :
    Represents s data (.scalar text) :=
  ⟨encode, by simpa using control, read⟩

theorem fills_of_absent (h : s.Holds .absent) : Fills s .absent (.scalar "") := by
  have control : hasControl "" = false := by decide
  cases h with
  | absent inner => exact ⟨⟨none, rfl, rfl⟩, by simpa using control, rfl⟩
  | enum _ _ _ h => cases h

theorem exists_fills (holds : s.Holds data) (h : data ≠ .absent → ∃ v, Represents s data v) :
    ∃ v, Fills s data v := by
  rcases eq_or_ne data .absent with rfl | hne
  · exact ⟨_, fills_of_absent holds⟩
  · obtain ⟨v, hv⟩ := h hne
    exact ⟨v, hv.fills⟩

theorem Represents.present {inner : Schema} {v : Value} (h : Represents inner data v)
    (hfull : data.encode ≠ .ok (some (.scalar ""))) :
    Represents (.option inner) (.present data) v := by
  refine ⟨by rw [Data.encode, h.encode], h.printable, ?_⟩
  have hv : v.isEmptyText = false := by
    cases v with
    | list | map => rfl
    | scalar text =>
      simp only [Value.isEmptyText, String.isEmpty_eq_false_iff]
      rintro rfl
      exact hfull h.encode
  rw [Schema.read, hv, if_neg (by simp), h.read]
  rfl

theorem Represents.newtype {inner : Schema} {v : Value} (h : Represents inner data v)
    (name : String) : Represents (.newtype name inner) (.newtype data) v := by
  refine ⟨by rw [Data.encode, h.encode], h.printable, ?_⟩
  rw [Schema.read, h.read]
  rfl

/-! ### Items -/

section Items
variable {items : List Data} {values : List Value}

theorem encodeItems_eq_ok (h : List.Forall₂ (fun data v => ∃ s, Fills s data v) items values) :
    Data.encodeItems items = .ok values := by
  induction h with
  | nil => rfl
  | cons h _ ih =>
    obtain ⟨_, h⟩ := h
    obtain ⟨value, hvalue, rfl⟩ := h.encode
    rw [Data.encodeItems, hvalue, Result.ok_bind, ih]
    rfl

theorem printable_of_fills (h : List.Forall₂ (fun data v => ∃ s, Fills s data v) items values) :
    (Value.list values).Everywhere Value.Printable := by
  refine Value.Everywhere.list_iff.2 ⟨Value.printable_list values, fun v hv => ?_⟩
  obtain ⟨_, -, _, hfills⟩ := Result.exists_of_forall₂ h v hv
  exact hfills.printable

theorem represents_items (h : List.Forall₂ (fun data v => ∃ s, Fills s data v) items values)
    (read : s.read (.list values) = .ok (.seq items)) :
    Represents s (.seq items) (.list values) := by
  refine ⟨?_, printable_of_fills h, read⟩
  rw [Data.encode, encodeItems_eq_ok h]
  rfl

theorem represents_seq (h : List.Forall₂ (Fills s) items values) :
    Represents (.seq s) (.seq items) (.list values) := by
  have hread : values.mapM s.read = .ok items := by
    rw [Result.mapM_eq_ok]
    exact h.flip.imp fun _ _ h => h.read
  refine represents_items (h.imp fun _ _ h => ⟨s, h⟩) ?_
  rw [Schema.read, Schema.elementsOf, Value.elements?, Result.ok_bind, hread]
  rfl

/-- Items of a tuple with what they are encoded as, each of a schema of its own. -/
inductive ItemsFit : List Schema → List Data → List Value → Prop
  | nil : ItemsFit [] [] []
  | cons {s : Schema} {data : Data} {v : Value} {schemas : List Schema} {items : List Data}
      {values : List Value} (h : Fills s data v) (rest : ItemsFit schemas items values) :
      ItemsFit (s :: schemas) (data :: items) (v :: values)

namespace ItemsFit
variable {schemas : List Schema}

theorem fills (h : ItemsFit schemas items values) :
    List.Forall₂ (fun data v => ∃ s, Fills s data v) items values := by
  induction h with
  | nil => exact .nil
  | cons h _ ih => exact .cons ⟨_, h⟩ ih

theorem readTuple_eq_ok (h : ItemsFit schemas items values) (expected : String) (count : Nat) :
    Schema.readTuple expected count schemas values = .ok items := by
  induction h generalizing count with
  | nil => rfl
  | cons h _ ih =>
    rw [Schema.readTuple, h.read, Result.ok_bind, ih]
    rfl

theorem represents_tuple (h : ItemsFit schemas items values) :
    Represents (.tuple schemas) (.seq items) (.list values) := by
  refine represents_items h.fills ?_
  rw [Schema.read, Schema.elementsOf, Value.elements?, Result.ok_bind, h.readTuple_eq_ok]
  rfl

theorem represents_tupleStruct (h : ItemsFit schemas items values) (name : String) :
    Represents (.tupleStruct name schemas) (.seq items) (.list values) := by
  refine represents_items h.fills ?_
  rw [Schema.read, Schema.elementsOf, Value.elements?, Result.ok_bind, h.readTuple_eq_ok]
  rfl

end ItemsFit

end Items

/-! ### Map keys -/

theorem Schema.HoldsKey.holds (h : s.HoldsKey data) : s.Holds data := by
  cases h with
  | bool b => exact .bool b
  | int n => exact .int n
  | char c => exact .char c
  | string s => exact .string s
  | enum distinct mem => exact .enum _ distinct mem (.unit _)

theorem exists_key (h : s.HoldsKey data) :
    ∃ key, data.encodeKey = .ok key ∧ s.readKey key = .ok data := by
  obtain ⟨key, hkey⟩ : ∃ key, data.encodeKey = .ok key := by cases h <;> exact ⟨_, rfl⟩
  have hbare : data.isNewtype = false := by cases h <;> rfl
  exact ⟨key, hkey, (Data.readKey_of_encodeKey h.holds hkey hbare).1⟩

/-! ### Entries -/

namespace Data

def isAbsent : Data → Bool
  | .absent => true
  | _ => false

theorem isAbsent_eq_false {data : Data} (h : data ≠ .absent) : data.isAbsent = false := by
  cases data <;> first | rfl | exact absurd rfl h

end Data

theorem represents_map {key value : Schema} {entries : List (Data × Data)}
    {pairs : List (String × Value)}
    (h : List.Forall₂ (fun e p => (e.1.encodeKey = .ok p.1 ∧ key.readKey p.1 = .ok e.1) ∧
      Represents value e.2 p.2) entries pairs)
    (portable : Data.Portable (.map entries)) :
    Represents (.map key value) (.map entries) (.map pairs) := by
  obtain ⟨distinct, hentries⟩ := portable
  have hkeys : entries.map (fun e => e.1.encodeKey) = (Entries.keys pairs).map .ok := by
    rw [Entries.keys, List.map_map, ← List.forall₂_eq_eq_eq, List.forall₂_map_left_iff,
      List.forall₂_map_right_iff]
    exact h.imp fun _ _ h => h.1.1
  have hencode : Data.encodeEntries [] entries = .ok pairs := by
    have hfit : List.Forall₂ Data.Encodes entries (pairs.map fun p => (p.1, some p.2)) := by
      rw [List.forall₂_map_right_iff]
      exact h.imp fun _ _ h => ⟨h.1.1, h.2.encode⟩
    rw [hkeys] at distinct
    refine (Data.encodeEntries_eq_ok_iff Data.nodup_keys_nil).2 ⟨_, hfit, ?_, distinct.of_map _⟩
    rw [List.nil_append, Data.kept, List.filterMap_map]
    exact (List.filterMap_some ..).symm
  have hread : pairs.mapM (Schema.readEntry key.readKey value.read) = .ok entries := by
    rw [Result.mapM_eq_ok]
    refine h.flip.imp fun p e h => ?_
    rw [Schema.readEntry, h.1.2, Result.ok_bind, h.2.read]
    rfl
  refine ⟨?_, ?_, ?_⟩
  · rw [Data.encode, hencode]
    rfl
  · rw [Value.Everywhere.map_iff, Value.printable_map, ← forall_and]
    intro p
    rw [← imp_and]
    intro hp
    obtain ⟨e, he, ⟨hkey, -⟩, hvalue⟩ := Result.exists_of_forall₂ h p hp
    exact ⟨(hentries e he).2 p.1 hkey, hvalue.printable⟩
  · rw [Schema.read, Schema.entriesOf, Value.entries?, Result.ok_bind, hread]
    rfl

/-! ### Fields -/

/-- Fields with their data and what it is encoded as: an absent option is left out. -/
inductive FieldsFit :
    List Field → List (String × Data) → List (String × Option Value) → Prop
  | nil : FieldsFit [] [] []
  | there (name : String) {schema : Schema} (hasDefault : Bool) {data : Data} {v : Value}
      {fields : List Field} {values : List (String × Data)} {encoded : List (String × Option Value)}
      (h : Represents schema data v) (rest : FieldsFit fields values encoded) :
      FieldsFit (.mk name schema hasDefault :: fields) ((name, data) :: values)
        ((name, some v) :: encoded)
  | left_out (name : String) (inner : Schema) {fields : List Field}
      {values : List (String × Data)} {encoded : List (String × Option Value)}
      (rest : FieldsFit fields values encoded) :
      FieldsFit (.mk name (.option inner) false :: fields) ((name, .absent) :: values)
        ((name, none) :: encoded)

namespace FieldsFit
variable {fields : List Field} {values : List (String × Data)}
  {encoded : List (String × Option Value)}

theorem names_values (h : FieldsFit fields values encoded) :
    values.map Prod.fst = fields.map Field.name := by
  induction h with
  | nil => rfl
  | there _ _ _ _ ih | left_out _ _ _ ih => rw [List.map_cons, List.map_cons, ih]; rfl

theorem names_encoded (h : FieldsFit fields values encoded) :
    encoded.map Prod.fst = fields.map Field.name := by
  induction h with
  | nil => rfl
  | there _ _ _ _ ih | left_out _ _ _ ih => rw [List.map_cons, List.map_cons, ih]; rfl

theorem encodes (h : FieldsFit fields values encoded) :
    List.Forall₂ (fun f p => f.1 = p.1 ∧ f.2.encode = .ok p.2) values encoded := by
  induction h with
  | nil => exact .nil
  | there _ _ h _ ih => exact .cons ⟨rfl, h.encode⟩ ih
  | left_out _ _ _ ih => exact .cons ⟨rfl, rfl⟩ ih

theorem encodeFields_eq_ok (h : FieldsFit fields values encoded)
    (distinct : (fields.map Field.name).Nodup) :
    Data.encodeFields [] values = .ok (Data.kept encoded) := by
  have hentries : List.Forall₂ Data.Encodes (values.map fun f => (.text f.1, f.2)) encoded := by
    rw [List.forall₂_map_left_iff]
    exact h.encodes.imp fun _ _ h => ⟨congrArg _ h.1, h.2⟩
  rw [← h.names_encoded] at distinct
  rw [Data.encodeFields_eq]
  exact (Data.encodeEntries_eq_ok_iff Data.nodup_keys_nil).2
    ⟨encoded, hentries, rfl, distinct.sublist (Data.keys_kept_sublist encoded)⟩

theorem printable (h : FieldsFit fields values encoded)
    (control : ∀ f ∈ values, hasControl f.1 = false) :
    (Value.map (Data.kept encoded)).Everywhere Value.Printable := by
  rw [Value.Everywhere.map_iff, Value.printable_map]
  induction h with
  | nil => simp [Data.kept]
  | there name _ h _ ih =>
    obtain ⟨hname, control⟩ := List.forall_mem_cons.1 control
    obtain ⟨hkeys, hvalues⟩ := ih control
    exact ⟨List.forall_mem_cons.2 ⟨hname, hkeys⟩, List.forall_mem_cons.2 ⟨h.printable, hvalues⟩⟩
  | left_out _ _ _ ih => exact ih (List.forall_mem_cons.1 control).2

theorem readEntries_eq_ok (h : FieldsFit fields values encoded) {all : List Field}
    (distinct : (all.map Field.name).Nodup) (mem : ∀ f ∈ fields, f ∈ all) (known : List String)
    (strict : Bool) :
    Schema.readEntries (Schema.field? all) known strict (Data.kept encoded) =
      .ok (values.filter (!·.2.isAbsent)) := by
  induction h with
  | nil => rfl
  | there name hasDefault h _ ih =>
    obtain ⟨hmem, mem⟩ := List.forall_mem_cons.1 mem
    rw [List.filter_cons_of_pos (by simp [Data.isAbsent_eq_false h.ne_absent])]
    show Schema.readEntries (Schema.field? all) known strict ((name, _) :: Data.kept _) = _
    rw [Schema.readEntries_cons_of_field (Schema.field?_of_mem distinct hmem), h.read,
      Result.ok_bind, ih mem]
    rfl
  | left_out _ _ _ ih => exact ih (List.forall_mem_cons.1 mem).2

theorem settle_eq_ok (h : FieldsFit fields values encoded) {found : List (String × Data)}
    (hfound : ∀ f ∈ values, found.lookup f.1 = if f.2.isAbsent then none else some f.2) :
    Schema.settle found fields = .ok values := by
  induction h with
  | nil => rfl
  | there name hasDefault h _ ih =>
    obtain ⟨hlookup, hfound⟩ := List.forall_mem_cons.1 hfound
    rw [Data.isAbsent_eq_false h.ne_absent] at hlookup
    simp only [Schema.settle, hlookup, ih hfound, Result.ok_bind]
    rfl
  | left_out name inner _ ih =>
    obtain ⟨hlookup, hfound⟩ := List.forall_mem_cons.1 hfound
    simp only [Schema.settle, hlookup, ih hfound, Result.ok_bind]
    rfl

/-- The fields are read back from the map they are encoded as, in declared order. -/
theorem read (h : FieldsFit fields values encoded) (distinct : (fields.map Field.name).Nodup)
    (known : List String) (strict : Bool) :
    ∃ found,
      Schema.readEntries (Schema.field? fields) known strict (Data.kept encoded) = .ok found ∧
        Schema.settle found fields = .ok values := by
  refine ⟨_, h.readEntries_eq_ok distinct (fun _ hf => hf) known strict,
    h.settle_eq_ok fun f hf => ?_⟩
  have hnodup : (Entries.keys values).Nodup := by
    rw [Entries.keys, h.names_values]
    exact distinct
  split
  · rename_i habsent
    -- the name stands for this field alone, so it is not found under another one either
    refine Entries.lookup_of_not_mem_keys fun hname => ?_
    obtain ⟨other, hother, heq⟩ := List.mem_map.1 hname
    obtain ⟨hmem, hthere⟩ := List.mem_filter.1 hother
    obtain rfl := List.inj_on_of_nodup_map hnodup hmem hf heq
    rw [habsent] at hthere
    cases hthere
  · rename_i hthere
    refine Entries.lookup_of_mem (hnodup.sublist ?_) (List.mem_filter.2 ⟨hf, by simpa using hthere⟩)
    exact (List.filter_sublist ..).map _

theorem represents_struct (h : FieldsFit fields values encoded)
    (distinct : (fields.map Field.name).Nodup) (control : ∀ f ∈ values, hasControl f.1 = false)
    (name : String) (strict : Bool) :
    Represents (.struct name fields strict) (.struct values) (.map (Data.kept encoded)) := by
  obtain ⟨found, hentries, hsettle⟩ := h.read distinct (fields.map Field.name) strict
  refine ⟨?_, h.printable control, ?_⟩
  · rw [Data.encode, h.encodeFields_eq_ok distinct]
    rfl
  · rw [Schema.read, Schema.entriesOf, Value.entries?, Result.ok_bind, hentries, Result.ok_bind,
      hsettle]
    rfl

end FieldsFit

/-! ### Variants -/

/-- How a variant is read: by its name alone, or as the only key of a map. -/
inductive VariantFits : Variant → Data → Value → Prop
  | unit (name : String) : VariantFits (.unit name) (.unitVariant name) (.scalar name)
  | carrying {variant : Variant} {data : Data} {v : Value}
      (read : ∀ enumName known,
        Schema.readVariant enumName known variant.name v [variant] = .ok data) :
      VariantFits variant data (.map [(variant.name, v)])

/-- A variant with the value it becomes: its name, or a map with its name as the only key. -/
structure RepresentsVariant (variant : Variant) (data : Data) (v : Value) : Prop where
  encode : data.encode = .ok (some v)
  printable : v.Everywhere Value.Printable
  fits : VariantFits variant data v

theorem representsVariant_of_carrying {variant : Variant} {v : Value}
    (encode : data.encode = .ok (some (.map [(variant.name, v)])))
    (control : hasControl variant.name = false) (printable : v.Everywhere Value.Printable)
    (read : ∀ enumName known,
      Schema.readVariant enumName known variant.name v [variant] = .ok data) :
    RepresentsVariant variant data (.map [(variant.name, v)]) := by
  refine ⟨encode, ?_, .carrying read⟩
  simpa using ⟨control, printable⟩

theorem VariantFits.read {variants : List Variant} {variant : Variant} {v : Value}
    (h : VariantFits variant data v) (name : String)
    (distinct : (variants.map Variant.name).Nodup) (mem : variant ∈ variants) :
    (Schema.enum name variants).read v = .ok data := by
  cases h with
  | unit =>
    rw [Schema.read]
    exact Schema.readVariantName_of_mem distinct mem
  | carrying read =>
    rw [Schema.read]
    simp only [Schema.readVariant_of_mem distinct mem, read]

end NestedQuery
