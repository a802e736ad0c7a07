import Mathlib
import NestedQuery.Proofs.Leaves
import NestedQuery.Proofs.StructReading

/-!
# Documents that read alike

A struct is read by the names of its fields. So a document in which the entries of maps trade
places, and in which entries that no field asks for come and go where they are let through, is read
as the same data: `Schema.Edits` is one such change, `read_edited` says so of any number of them, at
every schema of which `Schema.Unordered` holds.
-/

namespace NestedQuery

namespace Schema

/-! ### Schemas that show no entries -/

/-- The schemas of one text. -/
def isScalar : Schema → Bool
  | .bool | .int _ | .single | .double | .char | .string | .bytes | .unit | .unitStruct _ => true
  | _ => false

/-- A schema of scalars, options, sequences, tuples, newtypes and structs: nothing in its data shows
the entries of a map or their order. -/
inductive Unordered : Schema → Prop
  | scalar {s : Schema} (h : s.isScalar = true) : Unordered s
  | ignored : Unordered .ignored
  | option {inner : Schema} (h : Unordered inner) : Unordered (.option inner)
  | newtype (name : String) {inner : Schema} (h : Unordered inner) : Unordered (.newtype name inner)
  | seq {item : Schema} (h : Unordered item) : Unordered (.seq item)
  | tuple {schemas : List Schema} (h : ∀ s ∈ schemas, Unordered s) : Unordered (.tuple schemas)
  | tupleStruct (name : String) {schemas : List Schema} (h : ∀ s ∈ schemas, Unordered s) :
      Unordered (.tupleStruct name schemas)
  | struct (name : String) (strict : Bool) {fields : List Field}
      (h : ∀ f ∈ fields, Unordered f.schema) : Unordered (.struct name fields strict)

/-- The schema within options and newtypes. -/
def core : Schema → Schema
  | .option inner | .newtype _ inner => core inner
  | s => s

/-- What the item at a position is read with. An item that is not read may be anything. -/
def itemAt (s : Schema) (position : Nat) : Schema :=
  match s.core with
  | .seq item => item
  | .tuple schemas | .tupleStruct _ schemas => schemas[position]?.getD .ignored
  | _ => .ignored

/-- What the value under a key is read with. A value that is not read may be anything. -/
def entryAt (s : Schema) (key : String) : Schema :=
  match s.core with
  | .struct _ fields _ => ((fields.find? (·.name = key)).map Field.schema).getD .ignored
  | _ => .ignored

/-- One change: the entries of a map are put in another order, or a struct that is not strict gets
or loses an entry that is no field of it, at the top of a value or somewhere below. -/
inductive Edits : Schema → Value → Value → Prop
  | reorder {s : Schema} {as bs : List (String × Value)} (perm : as.Perm bs) :
      Edits s (.map as) (.map bs)
  | add {s : Schema} {name key : String} {fields : List Field} (front back : List (String × Value))
      (v : Value) (lenient : s.core = .struct name fields false)
      (unknown : key ∉ fields.map Field.name) :
      Edits s (.map (front ++ back)) (.map (front ++ (key, v) :: back))
  | remove {s : Schema} {name key : String} {fields : List Field}
      (front back : List (String × Value)) (v : Value)
      (lenient : s.core = .struct name fields false) (unknown : key ∉ fields.map Field.name) :
      Edits s (.map (front ++ (key, v) :: back)) (.map (front ++ back))
  | item {s : Schema} {v w : Value} (front back : List Value)
      (h : Edits (s.itemAt front.length) v w) :
      Edits s (.list (front ++ v :: back)) (.list (front ++ w :: back))
  | entry {s : Schema} {v w : Value} (front back : List (String × Value)) (key : String)
      (h : Edits (s.entryAt key) v w) :
      Edits s (.map (front ++ (key, v) :: back)) (.map (front ++ (key, w) :: back))

/-- Any number of changes, none of which leaves a map with a key twice. -/
def Edited (s : Schema) : Value → Value → Prop :=
  Relation.ReflTransGen fun v w => s.Edits v w ∧ w.Everywhere Value.Distinct

variable {s : Schema}

theorem Unordered.itemAt (h : s.Unordered) (position : Nat) : (s.itemAt position).Unordered := by
  have hget {schemas : List Schema} (h : ∀ s ∈ schemas, s.Unordered) :
      (schemas[position]?.getD .ignored).Unordered := by
    cases hs : schemas[position]? with
    | none => exact .ignored
    | some s => exact h s (List.mem_of_getElem? hs)
  induction h with
  | @scalar s hscalar => cases s <;> first | exact .ignored | cases hscalar
  | option _ ih | newtype _ _ ih => exact ih
  | seq h => exact h
  | tuple h | tupleStruct _ h => exact hget h
  | ignored | struct => exact .ignored

theorem Unordered.entryAt (h : s.Unordered) (key : String) : (s.entryAt key).Unordered := by
  induction h with
  | @scalar s hscalar => cases s <;> first | exact .ignored | cases hscalar
  | option _ ih | newtype _ _ ih => exact ih
  | @struct name strict fields h =>
    simp only [Schema.entryAt, core]
    cases hfind : fields.find? (·.name = key) with
    | none => exact .ignored
    | some f => exact h f (List.mem_of_find?_eq_some hfind)
  | ignored | seq | tuple | tupleStruct => exact .ignored

/-! ### Reading before and after a change -/

/-- A map is read as another one if it is where a struct is asked for. -/
theorem toOption_read_map (h : s.Unordered) {as bs : List (String × Value)}
    (hstruct : ∀ name fields strict, s.core = .struct name fields strict →
      ((Schema.struct name fields strict).read (.map as)).toOption =
        ((Schema.struct name fields strict).read (.map bs)).toOption) :
    (s.read (.map as)).toOption = (s.read (.map bs)).toOption := by
  induction h with
  | @scalar s hscalar => cases s <;> first | rfl | cases hscalar
  | ignored | seq | tuple | tupleStruct => rfl
  | option _ ih | newtype _ _ ih =>
    rw [read, read]
    exact Result.toOption_map_congr _ (ih hstruct)
  | struct name strict => exact hstruct name _ strict rfl

theorem toOption_readTuple (expected : String) (count : Nat) (schemas : List Schema)
    (front back : List Value) {v w : Value}
    (h : ((schemas[front.length]?.getD .ignored).read v).toOption =
      ((schemas[front.length]?.getD .ignored).read w).toOption) :
    (readTuple expected count schemas (front ++ v :: back)).toOption =
      (readTuple expected count schemas (front ++ w :: back)).toOption := by
  induction front generalizing count schemas with
  | nil =>
    cases schemas with
    | nil => rfl
    | cons s schemas =>
      simp only [List.nil_append, readTuple, Result.toOption_bind]
      have hvw : (s.read v).toOption = (s.read w).toOption := h
      rw [hvw]
  | cons item front ih =>
    cases schemas with
    | nil => rfl
    | cons s schemas =>
      simp only [List.cons_append, readTuple, Result.toOption_bind]
      rw [ih (count + 1) schemas h]

theorem toOption_mapM (s : Schema) (front back : List Value) {v w : Value}
    (h : (s.read v).toOption = (s.read w).toOption) :
    ((front ++ v :: back).mapM s.read).toOption = ((front ++ w :: back).mapM s.read).toOption := by
  simp only [List.mapM_append, List.mapM_cons, Result.toOption_bind, h]

/-- A list is read as another one if the items that differ are. -/
theorem toOption_read_list (hs : s.Unordered) (front back : List Value) {v w : Value}
    (h : ((s.itemAt front.length).read v).toOption = ((s.itemAt front.length).read w).toOption) :
    (s.read (.list (front ++ v :: back))).toOption =
      (s.read (.list (front ++ w :: back))).toOption := by
  induction hs with
  | @scalar s hscalar => cases s <;> first | rfl | cases hscalar
  | ignored | struct => rfl
  | option _ ih | newtype _ _ ih =>
    rw [read, read]
    exact Result.toOption_map_congr _ (ih h)
  | @seq item =>
    simp only [read, elementsOf, Value.elements?, Result.ok_bind, Result.toOption_bind]
    rw [toOption_mapM item front back h]
  | @tuple schemas | @tupleStruct _ schemas =>
    simp only [read, elementsOf, Value.elements?, Result.ok_bind, Result.toOption_bind]
    rw [toOption_readTuple _ 0 schemas front back h]

/-- Under the key of a field, a value is read with the schema of the field. -/
theorem read_entryAt {name key : String} {fields : List Field} {strict : Bool}
    (hcore : s.core = .struct name fields strict) {read : Value → Result Data}
    (h : field? fields key = some read) : (s.entryAt key).read = read := by
  rw [field?_eq] at h
  obtain ⟨f, hfind, rfl⟩ := Option.map_eq_some_iff.1 h
  simp only [entryAt, hcore, hfind]
  rfl

/-- An entry that is no field changes nothing, if the struct is not strict. -/
theorem toOption_read_insert (hs : s.Unordered) {name key : String} {fields : List Field}
    (lenient : s.core = .struct name fields false) (unknown : key ∉ fields.map Field.name)
    (front back : List (String × Value)) (v : Value) :
    (s.read (.map (front ++ (key, v) :: back))).toOption =
      (s.read (.map (front ++ back))).toOption := by
  have hfield : field? fields key = none := by
    rw [field?_eq, Option.map_eq_none_iff, List.find?_eq_none]
    intro f hf heq
    exact unknown (List.mem_map.2 ⟨f, hf, by simpa using heq⟩)
  refine toOption_read_map hs fun name' fields' strict hcore => ?_
  obtain ⟨rfl, rfl, rfl⟩ : name = name' ∧ fields = fields' ∧ false = strict := by
    simpa [lenient] using hcore
  exact toOption_read_struct name fields false (forall_readable_insert hfield front back v)
    (reading_insert hfield front back v)

/-- A change does not show in what is read. -/
theorem toOption_read_edits {v w : Value} (h : s.Edits v w) (hs : s.Unordered)
    (distinct : v.Everywhere Value.Distinct) : (s.read v).toOption = (s.read w).toOption := by
  induction h with
  | reorder perm =>
    refine toOption_read_map hs fun name fields strict _ => ?_
    refine toOption_read_struct name fields strict (by simp only [perm.mem_iff]) fun key => ?_
    rw [reading, reading, Entries.lookup_perm perm distinct.here key]
  | add front back v lenient unknown =>
    exact (toOption_read_insert hs lenient unknown front back v).symm
  | remove front back v lenient unknown =>
    exact toOption_read_insert hs lenient unknown front back v
  | item front back _ ih =>
    exact toOption_read_list hs front back (ih (hs.itemAt _) (distinct.item _ (by simp)))
  | @entry s v w front back key _ ih =>
    have hvalue := ih (hs.entryAt key) (distinct.entry (key, v) (by simp))
    refine toOption_read_map hs fun name fields strict hcore => ?_
    have hfield : ∀ read, field? fields key = some read →
        (read v).toOption = (read w).toOption := fun read hread => by
      rwa [read_entryAt hcore hread] at hvalue
    exact toOption_read_struct name fields strict (forall_readable_replace hfield front back)
      (reading_replace hfield front back)

theorem toOption_read_edited {v w : Value} (h : s.Edited v w) (hs : s.Unordered)
    (distinct : v.Everywhere Value.Distinct) : (s.read v).toOption = (s.read w).toOption := by
  have hrun : w.Everywhere Value.Distinct ∧ (s.read v).toOption = (s.read w).toOption := by
    induction h with
    | refl => exact ⟨distinct, rfl⟩
    | tail _ hstep ih => exact ⟨hstep.2, ih.2.trans (toOption_read_edits hstep.1 hs ih.1)⟩
  exact hrun.2

/-- What a whole document is read as, it is read as where it stands for a value. -/
theorem toOption_readTop : ∀ (s : Schema) (entries : List (String × Value)),
    (s.readTop entries).toOption = (s.read (.map entries)).toOption
  | .option inner, entries | .newtype _ inner, entries => by
    rw [readTop, read]
    exact Result.toOption_map_congr _ (toOption_readTop inner entries)
  | .seq _, _ | .tuple _, _ | .tupleStruct _ _, _ => rfl
  | .bool, _ | .int _, _ | .single, _ | .double, _ | .char, _ | .string, _ | .bytes, _ | .unit, _
  | .unitStruct _, _ | .ignored, _ | .any, _ | .map _ _, _ | .valueFirst _, _ | .struct _ _ _, _
  | .enum _ _, _ => rfl

end Schema

namespace Document

/-- Documents within the bound that arise from one another are read as the same data, or both
refused: by structs, neither the order of entries nor the entries they let through are seen. -/
theorem read_edited {s : Schema} (hs : s.Unordered) {doc doc' : Document}
    (distinct : doc.root.Everywhere Value.Distinct) (edited : s.Edited doc.root doc'.root)
    (bounded : doc.nesting ≤ maxNesting) (bounded' : doc'.nesting ≤ maxNesting) (data : Data) :
    doc.read s = .ok data ↔ doc'.read s = .ok data := by
  rw [read, read, if_neg (Nat.not_lt.2 bounded), if_neg (Nat.not_lt.2 bounded'), readUnbounded,
    readUnbounded]
  refine Result.toOption_eq_iff.1 ?_ data
  rw [Schema.toOption_readTop, Schema.toOption_readTop]
  exact Schema.toOption_read_edited edited hs distinct

/-- An entry is dropped and another one added around a strict struct in a list, whose own entries
trade places. -/
theorem read_edited_of_nested :
    let inner : Schema :=
      .struct "I" [.mk "a" .string false, .mk "b" (.option .bool) false] true
    let schema : Schema :=
      .option (.struct "S" [.mk "l" (.seq inner) false, .mk "n" .char true] false)
    let data : Data :=
      .present (.struct [("l", .seq [.struct [("a", .text "x"), ("b", .present (.bool true))]])])
    let doc : Document := ⟨[("u", .map [("a", .scalar "y")]),
      ("l", .list [.map [("b", .scalar "true"), ("a", .scalar "x")]])]⟩
    let doc' : Document := ⟨[("l", .list [.map [("a", .scalar "x"), ("b", .scalar "true")]]),
      ("v", .list [])]⟩
    schema.Unordered ∧ doc.root.Everywhere Value.Distinct ∧ schema.Edited doc.root doc'.root ∧
      doc.nesting ≤ maxNesting ∧ doc'.nesting ≤ maxNesting ∧ doc.read schema = .ok data ∧
      doc'.read schema = .ok data := by
  intro inner schema data doc doc'
  have hs : schema.Unordered := by
    refine .option (.struct "S" false ?_)
    simp only [List.forall_mem_cons, List.not_mem_nil, false_implies, implies_true, and_true,
      Field.schema]
    refine ⟨.seq (.struct "I" true ?_), .scalar rfl⟩
    simp only [List.forall_mem_cons, List.not_mem_nil, false_implies, implies_true, and_true,
      Field.schema]
    exact ⟨.scalar rfl, .option (.scalar rfl)⟩
  have distinct : doc.root.Everywhere Value.Distinct := by
    simp [doc, root, Entries.keys]
  have edited : schema.Edited doc.root doc'.root := by
    let list : Value := .list [.map [("b", .scalar "true"), ("a", .scalar "x")]]
    let list' : Value := .list [.map [("a", .scalar "x"), ("b", .scalar "true")]]
    have hremove : schema.Edits doc.root (.map [("l", list)]) := .remove [] _ _ rfl (by decide)
    have hreorder : schema.Edits (.map [("l", list)]) (.map [("l", list')]) :=
      .entry [] [] "l" (.item [] [] (.reorder (.swap ..)))
    have hadd : schema.Edits (.map [("l", list')]) doc'.root := .add [_] [] _ rfl (by decide)
    have hlist : list.Everywhere Value.Distinct := by simp [list, Entries.keys]
    have hlist' : list'.Everywhere Value.Distinct := by simp [list', Entries.keys]
    have hroot : doc'.root.Everywhere Value.Distinct := by
      simp [doc', root, Entries.keys]
    exact ((Relation.ReflTransGen.single ⟨hremove, by simpa [Entries.keys] using hlist⟩).tail
      ⟨hreorder, by simpa [Entries.keys] using hlist'⟩).tail ⟨hadd, hroot⟩
  have bounded : doc.nesting ≤ maxNesting := by cbv
  have bounded' : doc'.nesting ≤ maxNesting := by cbv
  have hread : doc.read schema = .ok data := by cbv
  exact ⟨hs, distinct, edited, bounded, bounded', hread,
    (read_edited hs distinct edited bounded bounded' data).1 hread⟩

end Document

end NestedQuery
