import NestedQuery.Proofs.DataQuery
import NestedQuery.Proofs.Nesting
import NestedQuery.Schema.Read

/-!
# How deeply data nests

`Data.levels` counts the sequences, maps and variants around the deepest part of data. Just as many
levels has the value that the data becomes (`height_of_encode`), so the nesting of a document is
that of the data it is made from. Data is never refused for it: what is `Writable` is so within any
number of sequences (`Writable.boxed`). Only the reader has a bound, which `nesting_of_toDocument`
states in terms of the data.
-/

namespace NestedQuery

namespace Data

/-! ### Levels -/

/-- Whether data becomes no value, since it is an absent option within options and newtypes. -/
def vanishes : Data → Bool
  | .absent => true
  | .present inner | .newtype inner => vanishes inner
  | _ => false

mutual

/-- The number of levels below the value that data becomes. A sequence or a map is one level, a
variant with data one around what it carries; options and newtypes are none. -/
def levels : Data → Nat
  | .present inner | .newtype inner => levels inner
  | .seq items => levelsItems items
  | .map entries => levelsEntries entries
  | .struct fields => levelsFields fields
  | .newtypeVariant _ inner => levels inner + 1
  | .tupleVariant _ items => levelsItems items + 1
  | .structVariant _ fields => levelsFields fields + 1
  | _ => 0

def levelsItems : List Data → Nat
  | [] => 0
  | item :: items => max (levels item + 1) (levelsItems items)

/-- An entry without a value is left out, so it makes no level. -/
def levelsEntries : List (Data × Data) → Nat
  | [] => 0
  | (_, value) :: entries =>
    max (if value.vanishes then 0 else levels value + 1) (levelsEntries entries)

def levelsFields : List (String × Data) → Nat
  | [] => 0
  | (_, value) :: fields =>
    max (if value.vanishes then 0 else levels value + 1) (levelsFields fields)

end

/-- The levels of data within the entries of the document that it becomes. -/
def nesting (data : Data) : Nat :=
  data.levels - 1

/-! ### The levels of what data becomes -/

/-- The value that data becomes has its levels, and there is one unless the data vanishes. -/
structure Keeps (data : Data) (value : Option Value) : Prop where
  isNone : value.isNone = data.vanishes
  height : ∀ v ∈ value, v.height = data.levels

theorem keeps_some {data : Data} {v : Value} (hvanishes : data.vanishes = false)
    (hheight : v.height = data.levels) : data.Keeps (some v) := by
  refine ⟨hvanishes.symm, ?_⟩
  rintro _ ⟨⟩
  exact hheight

/-- A variant is one level around its value. -/
theorem height_variant (variant : String) (v : Value) :
    (Value.map [(variant, v)]).height = v.height + 1 := by
  rw [Value.height, Value.heightEntries, Value.heightEntries, Nat.max_zero]

theorem levels_of_vanishes {data : Data} (h : data.vanishes = true) : data.levels = 0 := by
  fun_induction vanishes data with
  | case1 => rfl
  | case2 inner ih => exact ih h
  | case3 inner ih => exact ih h
  | case4 => cases h

theorem Keeps.height_fill {data : Data} {value : Option Value} (h : data.Keeps value) :
    (fill value).height = data.levels := by
  cases value with
  | some v => exact h.height v rfl
  | none =>
    rw [levels_of_vanishes h.isNone.symm]
    rfl

theorem heightEntries_append (front back : List (String × Value)) :
    Value.heightEntries (front ++ back) =
      max (Value.heightEntries front) (Value.heightEntries back) := by
  induction front with
  | nil => rw [List.nil_append, Value.heightEntries, Nat.zero_max]
  | cons entry front ih =>
    rw [List.cons_append, Value.heightEntries, Value.heightEntries, ih, Nat.max_assoc]

/-- An entry adds the levels of its value, unless it is left out. -/
theorem Keeps.height_addEntry {data : Data} {value : Option Value} (h : data.Keeps value)
    {key : String} {done next : List (String × Value)} (hadd : addEntry key value done = .ok next) :
    Value.heightEntries next =
      max (Value.heightEntries done) (if data.vanishes then 0 else data.levels + 1) := by
  rw [← h.isNone]
  unfold addEntry at hadd
  split at hadd
  · cases hadd
    rw [Option.isNone_none, if_pos rfl, Nat.max_zero]
  · rename_i v
    split at hadd
    · cases hadd
    · cases hadd
      rw [heightEntries_append, Value.heightEntries, Value.heightEntries, Nat.max_zero,
        h.height v rfl]
      rfl

mutual

theorem height_of_encode : ∀ (data : Data) {value : Option Value}, data.encode = .ok value →
    data.Keeps value
  | .absent, _, h => by cases h; exact ⟨rfl, nofun⟩
  | .present inner, _, h => by
    have ih := height_of_encode inner (by rwa [encode] at h)
    exact ⟨ih.isNone, ih.height⟩
  | .newtype inner, _, h => by
    have ih := height_of_encode inner (by rwa [encode] at h)
    exact ⟨ih.isNone, ih.height⟩
  | .unit, _, h | .bool _, _, h | .int _, _, h | .single _, _, h | .double _, _, h | .char _, _, h
  | .text _, _, h | .unitVariant _, _, h => by
    cases h
    exact keeps_some rfl rfl
  | .bytes bs, _, h => by
    rw [encode] at h
    obtain ⟨text, -, h⟩ := Result.bind_eq_ok.1 h
    cases h
    exact keeps_some rfl rfl
  | .seq items, _, h => by
    rw [encode] at h
    obtain ⟨values, hvalues, h⟩ := Result.bind_eq_ok.1 h
    cases h
    exact keeps_some rfl (height_of_encodeItems items hvalues)
  | .map entries, _, h => by
    rw [encode] at h
    obtain ⟨done, hdone, h⟩ := Result.bind_eq_ok.1 h
    cases h
    exact keeps_some rfl ((height_of_encodeEntries entries hdone).trans (Nat.zero_max _))
  | .struct fields, _, h => by
    rw [encode] at h
    obtain ⟨done, hdone, h⟩ := Result.bind_eq_ok.1 h
    cases h
    exact keeps_some rfl ((height_of_encodeFields fields hdone).trans (Nat.zero_max _))
  | .newtypeVariant variant inner, _, h => by
    rw [encode] at h
    obtain ⟨value, hvalue, h⟩ := Result.bind_eq_ok.1 h
    cases h
    refine keeps_some rfl ?_
    rw [height_variant, (height_of_encode inner hvalue).height_fill, levels]
  | .tupleVariant variant items, _, h => by
    rw [encode] at h
    obtain ⟨values, hvalues, h⟩ := Result.bind_eq_ok.1 h
    cases h
    refine keeps_some rfl ?_
    rw [height_variant, Value.height, height_of_encodeItems items hvalues, levels]
  | .structVariant variant fields, _, h => by
    rw [encode] at h
    obtain ⟨done, hdone, h⟩ := Result.bind_eq_ok.1 h
    cases h
    refine keeps_some rfl ?_
    rw [height_variant, Value.height, height_of_encodeFields fields hdone, Value.heightEntries,
      Nat.zero_max, levels]
  | .valueOnly _, _, h => by cases h
  | .keyOnly key, _, h => by
    rw [encode] at h
    obtain ⟨_, -, h⟩ := Result.bind_eq_ok.1 h
    cases h
    exact keeps_some rfl rfl

theorem height_of_encodeItems : ∀ (items : List Data) {values : List Value},
    encodeItems items = .ok values → Value.heightItems values = levelsItems items
  | [], _, h => by cases h; rfl
  | item :: items, _, h => by
    rw [encodeItems] at h
    obtain ⟨value, hvalue, h⟩ := Result.bind_eq_ok.1 h
    obtain ⟨values, hvalues, h⟩ := Result.bind_eq_ok.1 h
    cases h
    rw [Value.heightItems, (height_of_encode item hvalue).height_fill,
      height_of_encodeItems items hvalues, levelsItems]

theorem height_of_encodeEntries : ∀ (entries : List (Data × Data))
    {done next : List (String × Value)}, encodeEntries done entries = .ok next →
    Value.heightEntries next = max (Value.heightEntries done) (levelsEntries entries)
  | [], _, _, h => by
    cases h
    exact (Nat.max_zero _).symm
  | (key, value) :: entries, done, _, h => by
    rw [encodeEntries] at h
    obtain ⟨name, -, h⟩ := Result.bind_eq_ok.1 h
    obtain ⟨v, hv, h⟩ := Result.bind_eq_ok.1 h
    obtain ⟨next, hnext, h⟩ := Result.bind_eq_ok.1 h
    rw [height_of_encodeEntries entries h, (height_of_encode value hv).height_addEntry hnext,
      levelsEntries, Nat.max_assoc]

theorem height_of_encodeFields : ∀ (fields : List (String × Data))
    {done next : List (String × Value)}, encodeFields done fields = .ok next →
    Value.heightEntries next = max (Value.heightEntries done) (levelsFields fields)
  | [], _, _, h => by
    cases h
    exact (Nat.max_zero _).symm
  | (name, value) :: fields, done, _, h => by
    rw [encodeFields] at h
    obtain ⟨v, hv, h⟩ := Result.bind_eq_ok.1 h
    obtain ⟨next, hnext, h⟩ := Result.bind_eq_ok.1 h
    rw [height_of_encodeFields fields h, (height_of_encode value hv).height_addEntry hnext,
      levelsFields, Nat.max_assoc]

end

/-! ### Documents made from data -/

theorem nesting_eq (doc : Document) : doc.nesting = doc.root.height - 1 := by
  have hle (n : Nat) : doc.nesting ≤ n ↔ doc.root.height - 1 ≤ n := by
    have hroot : doc.root.height ≤ n + 1 ↔ ∀ e ∈ doc.entries, e.2.height + 1 ≤ n + 1 := by
      rw [Value.height_le_iff]
      exact List.forall_mem_map
    rw [Document.nesting_le_iff, Nat.sub_le_iff_le_add, hroot]
    simp only [Nat.add_le_add_iff_right]
  exact Nat.le_antisymm ((hle _).2 (Nat.le_refl _)) ((hle _).1 (Nat.le_refl _))

theorem nesting_toDocument {data : Data} {doc : Document} (h : data.toDocument = .ok doc) :
    doc.nesting = data.nesting := by
  unfold toDocument at h
  obtain ⟨value, hvalue, h⟩ := Result.bind_eq_ok.1 h
  have hkeeps := height_of_encode data hvalue
  rw [nesting_eq]
  split at h
  · cases h
    have hfill := hkeeps.height_fill
    unfold nesting
    rw [← hfill]
    rfl
  · rename_i entries
    obtain ⟨_, -, h⟩ := Result.bind_eq_ok.1 h
    cases h
    have hroot : (Document.root ⟨entries⟩).height = data.levels := hkeeps.height _ rfl
    rw [hroot, nesting]
  · cases h
  · cases h

/-! ### No bound on what is written -/

/-- Data that becomes a value, or none, without control characters. -/
def Writable (data : Data) : Prop :=
  ∃ value, data.encode = .ok value ∧ ∀ v ∈ value, v.Everywhere Value.Printable

/-- Data inside `n` sequences of one item each. -/
def boxed (data : Data) : Nat → Data
  | 0 => data
  | n + 1 => .seq [boxed data n]

variable {data : Data} {name : String}

theorem Writable.seq (h : data.Writable) : (seq [data]).Writable := by
  obtain ⟨value, hvalue, hprintable⟩ := h
  refine ⟨Value.list [fill value], ?_, ?_⟩
  · rw [encode, encodeItems, hvalue]
    rfl
  · have hfill : (fill value).Everywhere Value.Printable := by
      cases value with
      | none =>
        have hempty : hasControl "" = false := by decide
        simpa [fill] using hempty
      | some v => exact hprintable v rfl
    rintro _ ⟨⟩
    exact Value.Everywhere.list_iff.2 ⟨Value.printable_list _, by simpa using hfill⟩

theorem Writable.boxed (h : data.Writable) (n : Nat) : (data.boxed n).Writable := by
  induction n with
  | zero => exact h
  | succ n ih => exact ih.seq

theorem levels_boxed (data : Data) (n : Nat) : (data.boxed n).levels = data.levels + n := by
  induction n with
  | zero => rfl
  | succ n ih => rw [boxed, levels, levelsItems, levelsItems, ih, Nat.max_zero, Nat.add_assoc]

theorem nesting_field_boxed (name : String) (data : Data) (n : Nat) :
    (struct [(name, data.boxed n)]).nesting = data.levels + n := by
  have hlevels := levels_boxed data n
  rw [nesting, levels, levelsFields, levelsFields, Nat.max_zero]
  split
  · rename_i hvanishes
    have hzero := levels_of_vanishes hvanishes
    omega
  · omega

/-- A struct of one field becomes a document exactly if its data can be written. -/
theorem exists_toDocument_iff (hname : hasControl name = false) :
    (∃ doc, (struct [(name, data)]).toDocument = .ok doc) ↔ data.Writable := by
  have hencode : (struct [(name, data)]).encode =
      (fun value => some (.map (value.toList.map (name, ·)))) <$> data.encode := by
    rw [encode, encodeFields]
    cases data.encode with
    | error e => rfl
    | ok value => cases value <;> rfl
  constructor
  · rintro ⟨doc, h⟩
    obtain ⟨distinct, printable⟩ := distinct_and_printable_of_toDocument h
    unfold toDocument at h
    obtain ⟨top, htop, h⟩ := Result.bind_eq_ok.1 h
    obtain ⟨value, hvalue, rfl⟩ := Result.map_eq_ok.1 (hencode ▸ htop)
    obtain ⟨_, -, h⟩ := Result.bind_eq_ok.1 h
    cases h
    refine ⟨value, hvalue, fun v hv => ?_⟩
    have hmem : (name, v) ∈ value.toList.map (name, ·) := by simpa using hv
    exact printable.entry _ hmem
  · rintro ⟨value, hvalue, hprintable⟩
    have hcheck : Document.checkControls ⟨value.toList.map (name, ·)⟩ = .ok () := by
      refine Document.checkControls_eq_ok_iff.2 (Value.Everywhere.map_iff.2 ⟨?_, ?_⟩)
      · simp [hname]
      · intro e he
        obtain ⟨v, hv, rfl⟩ := List.mem_map.1 he
        exact hprintable v (Option.mem_toList.1 hv)
    refine ⟨⟨value.toList.map (name, ·)⟩, ?_⟩
    rw [toDocument, hencode, hvalue, Except.map_ok, Result.ok_bind]
    simp only [hcheck, Result.ok_bind]
    rfl

/-- A document nests as deeply as the data that it is made from, which nothing bounds: what can be
written as the one field of a struct can be written in the same place within any number of
sequences. The field's name holds no control character: under such a name an absent option is left
out, but a sequence with one in it is refused. Only the reader refuses what is nested too deeply. -/
theorem nesting_of_toDocument (data : Data) :
    (∀ doc, data.toDocument = .ok doc →
      doc.nesting = data.nesting ∧
        ∀ schema, doc.read schema =
          if maxNesting < data.nesting then .error (.misfit (.tooNested data.nesting maxNesting))
          else doc.readUnbounded schema) ∧
      ∀ name, hasControl name = false →
        (∃ doc, (struct [(name, data)]).toDocument = .ok doc) →
          ∀ n, ∃ doc, (struct [(name, data.boxed n)]).toDocument = .ok doc ∧
            doc.nesting = data.levels + n := by
  constructor
  · intro doc h
    have hnesting := nesting_toDocument h
    exact ⟨hnesting, fun schema => by rw [Document.read, hnesting]⟩
  · intro name hname hfield n
    have hwritable := (exists_toDocument_iff hname).1 hfield
    obtain ⟨doc, hdoc⟩ := (exists_toDocument_iff hname).2 (hwritable.boxed n)
    exact ⟨doc, hdoc, (nesting_toDocument hdoc).trans (nesting_field_boxed name data n)⟩

/-- A unit within 128 sequences is read, within one more it is written all the same. -/
theorem nesting_of_boxed_unit :
    (∃ doc, (struct [("a", unit.boxed 128)]).toDocument = .ok doc ∧ doc.nesting = 128 ∧
      ∀ schema, doc.read schema = doc.readUnbounded schema) ∧
    ∃ doc, (struct [("a", unit.boxed 129)]).toDocument = .ok doc ∧ doc.nesting = 129 ∧
      ∀ schema, doc.read schema = .error (.misfit (.tooNested 129 128)) := by
  have hfield := (nesting_of_toDocument .unit).2 "a" (by decide) ⟨⟨[("a", .scalar "")]⟩, by cbv⟩
  obtain ⟨last, hlast, hlastNesting⟩ := hfield 128
  obtain ⟨first, hfirst, hfirstNesting⟩ := hfield 129
  obtain ⟨hlastEq, hlastRead⟩ := (nesting_of_toDocument _).1 last hlast
  obtain ⟨hfirstEq, hfirstRead⟩ := (nesting_of_toDocument _).1 first hfirst
  rw [← hlastEq, hlastNesting] at hlastRead
  rw [← hfirstEq, hfirstNesting] at hfirstRead
  exact ⟨⟨last, hlast, hlastNesting, hlastRead⟩, first, hfirst, hfirstNesting, hfirstRead⟩

/-- Not all that is written is within the bound of the reader. -/
theorem not_nesting_le_of_toDocument :
    ¬ ∀ (data : Data) (doc : Document), data.toDocument = .ok doc → doc.nesting ≤ maxNesting := by
  intro h
  have hunit : Writable .unit := by
    have hempty : hasControl "" = false := by decide
    refine ⟨Value.scalar "", rfl, ?_⟩
    rintro _ ⟨⟩
    simpa using hempty
  have hname : hasControl "a" = false := by decide
  obtain ⟨doc, hdoc⟩ := (exists_toDocument_iff hname).2 (hunit.boxed 129)
  have hle := h _ doc hdoc
  rw [nesting_toDocument hdoc, nesting_field_boxed] at hle
  exact absurd hle (by decide)

end Data

end NestedQuery
