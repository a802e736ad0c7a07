import NestedQuery.Proofs.Represents

/-!
# Typed data read back

Data of a schema that is portable becomes a value that the schema reads it from
(`exists_represents`), so it becomes a document from which it is read back, and if the canonical
query of that document spells all of it, from the query too: `read_toDocument`.
-/

namespace NestedQuery

mutual

/-- Data of a schema becomes a value that the schema reads it from. -/
theorem exists_represents : ∀ (s : Schema) (data : Data), s.Holds data →
    data.Everywhere Data.Portable → data ≠ .absent → ∃ v, Represents s data v
  | .bool, _, h, _, _ => by
    cases h with
    | bool b =>
      have hread : Schema.readKey .bool (Data.boolText b) = .ok (.bool b) := by
        rw [Schema.readKey, Schema.readBool?_boolText]
        rfl
      exact ⟨_, represents_scalar rfl (Data.hasControl_boolText b) hread⟩
  | .int _, _, h, _, _ => by
    cases h with
    | int n =>
      have hread : Schema.readKey (.int n.type) n.text = .ok (.int n) := by
        rw [Schema.readKey, FixedInt.ofText?_text]
        rfl
      exact ⟨_, represents_scalar rfl n.hasControl_text hread⟩
  | .char, _, h, portable, _ => by
    cases h with
    | char c => exact ⟨_, represents_scalar rfl portable.here (Schema.readChar_singleton c)⟩
  | .string, _, h, portable, _ => by
    cases h with
    | string text => exact ⟨_, represents_scalar rfl portable.here rfl⟩
  | .bytes, _, h, portable, _ => by
    cases h with
    | bytes bs =>
      obtain ⟨text, rfl, control⟩ := portable.here
      refine ⟨_, represents_scalar ?_ control rfl⟩
      rw [Data.encode, textOfBytes, Utf8.decode?_encode]
      rfl
  | .unit, _, h, _, _ => by
    cases h with
    | unit => exact ⟨_, represents_scalar rfl (by decide) rfl⟩
  | .unitStruct name, _, h, _, _ => by
    cases h with
    | unitStruct => exact ⟨_, represents_scalar rfl (by decide) rfl⟩
  | .single, _, h, _, _ | .double, _, h, _, _ | .ignored, _, h, _, _ | .any, _, h, _, _
  | .valueFirst _, _, h, _, _ => by
    cases h
  | .option inner, _, h, portable, hne => by
    cases h with
    | absent => exact absurd rfl hne
    | @present _ data h =>
      obtain ⟨hthere, hfull⟩ := portable.here
      have hinner : data ≠ .absent := by
        rintro rfl
        exact hthere rfl
      obtain ⟨v, hv⟩ := exists_represents inner data h (portable.child (by simp [Data.children]))
        hinner
      exact ⟨v, hv.present hfull⟩
  | .newtype name inner, _, h, portable, _ => by
    cases h with
    | @newtype _ _ data h =>
      obtain ⟨v, hv⟩ := exists_represents inner data h (portable.child (by simp [Data.children]))
        portable.here
      exact ⟨v, hv.newtype name⟩
  | .seq item, _, h, portable, _ => by
    cases h with
    | seq h =>
      -- an absent item has no value of its own, but its place is filled
      have hfills := fun data hdata => exists_fills (h data hdata)
        (exists_represents item data (h data hdata) (portable.child hdata))
      obtain ⟨values, hvalues⟩ := Result.exists_forall₂ hfills
      exact ⟨_, represents_seq hvalues⟩
  | .tuple schemas, _, h, portable, _ => by
    cases h with
    | tuple h =>
      obtain ⟨values, hvalues⟩ := exists_itemsFit schemas _ h fun _ hdata => portable.child hdata
      exact ⟨_, hvalues.represents_tuple⟩
  | .tupleStruct name schemas, _, h, portable, _ => by
    cases h with
    | tupleStruct _ h =>
      obtain ⟨values, hvalues⟩ := exists_itemsFit schemas _ h fun _ hdata => portable.child hdata
      exact ⟨_, hvalues.represents_tupleStruct name⟩
  | .map key value, _, h, portable, _ => by
    cases h with
    | @map _ _ entries keys values =>
      have hpairs : ∀ e ∈ entries, ∃ p : String × Value,
          (e.1.encodeKey = .ok p.1 ∧ key.readKey p.1 = .ok e.1) ∧ Represents value e.2 p.2 :=
        fun e he => by
          obtain ⟨text, htext⟩ := exists_key (keys e he)
          obtain ⟨v, hv⟩ := exists_represents value e.2 (values e he)
            (portable.child (List.mem_map_of_mem he)) (portable.here.2 e he).1
          exact ⟨(text, v), htext, hv⟩
      obtain ⟨pairs, hpairs⟩ := Result.exists_forall₂ hpairs
      exact ⟨_, represents_map hpairs portable.here⟩
  | .struct name fields strict, _, h, portable, _ => by
    cases h with
    | struct _ _ distinct h =>
      obtain ⟨encoded, hencoded⟩ := exists_fieldsFit fields _ h fun f hf =>
        portable.child (List.mem_map_of_mem hf)
      exact ⟨_, hencoded.represents_struct distinct portable.here name strict⟩
  | .enum name variants, _, h, portable, _ => by
    cases h with
    | enum _ distinct mem h =>
      obtain ⟨v, hv⟩ := exists_representsVariant_of_mem variants _ _ mem h portable
      exact ⟨v, hv.encode, hv.printable, hv.fits.read name distinct mem⟩

theorem exists_itemsFit : ∀ (schemas : List Schema) (items : List Data),
    List.Forall₂ Schema.Holds schemas items → (∀ data ∈ items, data.Everywhere Data.Portable) →
    ∃ values, ItemsFit schemas items values
  | [], _, h, _ => by
    cases h
    exact ⟨[], .nil⟩
  | s :: schemas, _, h, portable => by
    cases h with
    | @cons _ data _ items h hrest =>
      obtain ⟨hdata, hitems⟩ := List.forall_mem_cons.1 portable
      obtain ⟨v, hv⟩ := exists_fills h (exists_represents s data h hdata)
      obtain ⟨values, hvalues⟩ := exists_itemsFit schemas items hrest hitems
      exact ⟨v :: values, .cons hv hvalues⟩

theorem exists_fieldsFit : ∀ (fields : List Field) (values : List (String × Data)),
    List.Forall₂ Field.Holds fields values → (∀ f ∈ values, f.2.Everywhere Data.Portable) →
    ∃ encoded, FieldsFit fields values encoded
  | [], _, h, _ => by
    cases h
    exact ⟨[], .nil⟩
  | .mk name schema hasDefault :: fields, _, h, portable => by
    cases h with
    | @cons _ value _ values h hrest =>
      obtain ⟨hvalue, hvalues⟩ := List.forall_mem_cons.1 portable
      obtain ⟨encoded, hencoded⟩ := exists_fieldsFit fields values hrest hvalues
      cases h with
      | @mk _ _ _ data h there =>
        -- an absent field is left out, and only an option has one
        rcases eq_or_ne data .absent with rfl | hne
        · cases h with
          | absent inner =>
            obtain rfl : hasDefault = false := by simpa using there
            exact ⟨_, .left_out name inner hencoded⟩
          | enum _ _ _ h => cases h
        · obtain ⟨v, hv⟩ := exists_represents schema data h hvalue hne
          exact ⟨_, .there name hasDefault hv hencoded⟩

theorem exists_representsVariant : ∀ (variant : Variant) (data : Data), variant.Holds data →
    data.Everywhere Data.Portable → ∃ v, RepresentsVariant variant data v
  | .unit name, _, h, portable => by
    cases h with
    | unit =>
      have control : hasControl name = false := portable.here
      exact ⟨.scalar name, rfl, by simpa using control, .unit name⟩
  | .newtype name inner, _, h, portable => by
    cases h with
    | @newtype _ _ data h =>
      obtain ⟨v, hv⟩ := exists_fills h
        (exists_represents inner data h (portable.child (by simp [Data.children])))
      refine ⟨_, representsVariant_of_carrying ?_ portable.here hv.printable fun _ _ => ?_⟩
      · obtain ⟨value, hvalue, rfl⟩ := hv.encode
        rw [Data.encode, hvalue]
        rfl
      · rw [Schema.readVariant, Variant.name, if_pos rfl, hv.read]
        rfl
  | .tuple name schemas, _, h, portable => by
    cases h with
    | tuple _ h =>
      obtain ⟨values, hvalues⟩ := exists_itemsFit schemas _ h fun _ hdata => portable.child hdata
      refine ⟨_, representsVariant_of_carrying ?_ portable.here (printable_of_fills hvalues.fills)
        fun _ _ => ?_⟩
      · rw [Data.encode, encodeItems_eq_ok hvalues.fills]
        rfl
      · rw [Schema.readVariant, Variant.name, if_pos rfl]
        simp only [Schema.elementsOf, Value.elements?, Result.ok_bind, hvalues.readTuple_eq_ok]
        rfl
  | .struct name fields, _, h, portable => by
    cases h with
    | struct _ distinct h =>
      obtain ⟨encoded, hencoded⟩ := exists_fieldsFit fields _ h fun f hf =>
        portable.child (List.mem_map_of_mem hf)
      obtain ⟨found, hentries, hsettle⟩ := hencoded.read distinct (fields.map Field.name) false
      refine ⟨_, representsVariant_of_carrying ?_ portable.here.1
        (hencoded.printable portable.here.2) fun _ _ => ?_⟩
      · rw [Data.encode, hencoded.encodeFields_eq_ok distinct]
        rfl
      · rw [Schema.readVariant, Variant.name, if_pos rfl, Schema.entriesOf, Value.entries?,
          Result.ok_bind, hentries, Result.ok_bind, hsettle]
        rfl

theorem exists_representsVariant_of_mem : ∀ (variants : List Variant) (variant : Variant)
    (data : Data), variant ∈ variants → variant.Holds data → data.Everywhere Data.Portable →
    ∃ v, RepresentsVariant variant data v
  | [], _, _, mem, _, _ => by cases mem
  | head :: variants, variant, data, mem, h, portable => by
    rcases List.mem_cons.1 mem with heq | mem
    · rw [heq] at h ⊢
      exact exists_representsVariant head data h portable
    · exact exists_representsVariant_of_mem variants variant data mem h portable

end

namespace Data
variable {s : Schema} {data : Data}

/-! ### Documents -/

theorem exists_entries_of_isTop {v : Value} (top : data.isTop = true)
    (h : data.encode = .ok (some v)) : ∃ entries, v = .map entries := by
  cases data with
  | map | struct | newtypeVariant | tupleVariant | structVariant =>
    rw [encode] at h
    obtain ⟨_, -, h⟩ := Result.bind_eq_ok.1 h
    cases h
    exact ⟨_, rfl⟩
  | _ => cases top

theorem readTop_eq_read (holds : s.Holds data) (top : data.isTop = true)
    (entries : List (String × Value)) : s.readTop entries = s.read (.map entries) := by
  cases holds with
  | map | struct | enum => rfl
  | _ => cases top

theorem toDocument_eq_ok {entries : List (String × Value)}
    (encode : data.encode = .ok (some (.map entries)))
    (printable : (Value.map entries).Everywhere Value.Printable) :
    data.toDocument = .ok ⟨entries⟩ := by
  have hcheck : Document.checkControls ⟨entries⟩ = .ok () :=
    Document.checkControls_eq_ok_iff.2 printable
  rw [toDocument, encode, Result.ok_bind]
  simp only [hcheck, Result.ok_bind]
  rfl

/-- A document that its canonical query spells is read back from the query of the data. -/
theorem read_toQuery {doc : Document} (h : data.toDocument = .ok doc) (filled : doc.Filled)
    (named : doc.root.Everywhere Value.Named) (bounded : doc.root.Everywhere Value.Bounded)
    {write read : Bool} (hwr : write = true → read = true) :
    ∃ query, data.toQuery { spaceAsPlus := write } = .ok query ∧
      Query.read { spaceAsPlus := read } s (Utf8.encode query) = doc.read s := by
  obtain ⟨distinct, printable⟩ := distinct_and_printable_of_toDocument h
  have hparse : Query.parseText { spaceAsPlus := read } (doc.stringify { spaceAsPlus := write }) =
      .ok doc.prune :=
    Document.parse_stringify_of_spellable hwr (Config.admits_of_unlimited read doc.leaves)
      (distinct.regular bounded) (doc.spellable_of_filled filled printable named)
  rw [Document.prune_eq_self filled, Query.parseText] at hparse
  refine ⟨doc.stringify { spaceAsPlus := write }, by rw [toQuery, h]; rfl, ?_⟩
  rw [Query.read, hparse, Result.ok_bind]

/-- Portable data of a schema becomes a document. If that is not nested too deeply, the data is read
back from it, and from its query if nothing in the document is hollow or without a name, and no list
outgrows the memory. -/
theorem read_toDocument (holds : s.Holds data) (top : data.isTop = true)
    (portable : data.Everywhere Portable) :
    ∃ doc, data.toDocument = .ok doc ∧
      (doc.nesting ≤ maxNesting →
        doc.read s = .ok data ∧
          (doc.Filled → doc.root.Everywhere Value.Named → doc.root.Everywhere Value.Bounded →
            ∀ write read : Bool, (write = true → read = true) →
              ∃ query, data.toQuery { spaceAsPlus := write } = .ok query ∧
                Query.read { spaceAsPlus := read } s (Utf8.encode query) = .ok data)) := by
  have hne : data ≠ .absent := by
    rintro rfl
    cases top
  obtain ⟨v, hv⟩ := exists_represents s data holds portable hne
  obtain ⟨entries, rfl⟩ := exists_entries_of_isTop top hv.encode
  have hdoc := toDocument_eq_ok hv.encode hv.printable
  refine ⟨⟨entries⟩, hdoc, fun hnesting => ?_⟩
  have hread : Document.read s ⟨entries⟩ = .ok data := by
    rw [Document.read, if_neg (Nat.not_lt.2 hnesting), Document.readUnbounded,
      readTop_eq_read holds top, hv.read]
  refine ⟨hread, fun filled named bounded write read hwr => ?_⟩
  rw [← hread]
  exact read_toQuery hdoc filled named bounded hwr

/-- The least number of its width, an absent field, an absent item and a variant. -/
theorem read_toDocument_of_struct :
    let least : FixedInt := ⟨⟨true, .w8⟩, -128, by decide⟩
    let schema : Schema := .struct "S"
      [.mk "n" (.int least.type) false, .mk "o" (.option .string) false,
        .mk "l" (.seq (.option .bool)) false, .mk "e" (.enum "E" [.newtype "V" .char]) false] true
    let data : Data := .struct
      [("n", .int least), ("o", .absent), ("l", .seq [.present (.bool true), .absent]),
        ("e", .newtypeVariant "V" (.char 'x'))]
    let doc : Document :=
      ⟨[("n", .scalar "-128"), ("l", .list [.scalar "true", .scalar ""]),
        ("e", .map [("V", .scalar "x")])]⟩
    schema.Holds data ∧ data.Everywhere Portable ∧ data.toDocument = .ok doc ∧
      doc.read schema = .ok data ∧
        ∃ query, data.toQuery {} = .ok query ∧
          Query.read {} schema (Utf8.encode query) = .ok data := by
  intro least schema data doc
  have hvariant : Variant.Holds (.newtype "V" .char) (.newtypeVariant "V" (.char 'x')) :=
    .newtype "V" (.char 'x')
  have holds : schema.Holds data := by
    refine .struct "S" true (by decide) <| .cons (.mk "n" (.int least) nofun) <|
      .cons (.mk "o" (.absent .string) nofun) <| .cons (.mk "l" (.seq ?_) nofun) <|
      .cons (.mk "e" (.enum "E" (by decide) (by simp) hvariant) nofun) .nil
    simp [Schema.Holds.absent, Schema.Holds.present, Schema.Holds.bool]
  have portable : data.Everywhere Portable := by
    have scalar {d : Data} (hd : d.children = []) (h : d.Portable) : d.Everywhere Portable :=
      .intro h (by simp [hd])
    have hname : hasControl "V" = false := by decide
    have hx : Portable (.char 'x') := show hasControl "x" = false by decide
    have hpresent : Portable (.present (.bool true)) := ⟨nofun, by simp [encode, boolText]⟩
    refine .intro (by simp [data, Portable]; decide) ?_
    simp only [data, children, List.map_cons, List.map_nil, List.forall_mem_cons]
    refine ⟨scalar rfl trivial, scalar rfl trivial, .intro trivial ?_, .intro hname ?_, nofun⟩
    · simp only [children, List.forall_mem_cons]
      refine ⟨.intro hpresent ?_, scalar rfl trivial, nofun⟩
      simpa [children] using scalar (d := .bool true) rfl trivial
    · simpa [children] using scalar rfl hx
  have hdoc : data.toDocument = .ok doc := by cbv
  obtain ⟨d, hd, hread⟩ := read_toDocument holds rfl portable
  obtain rfl := Except.ok.inj (hd.symm.trans hdoc)
  obtain ⟨hread, hquery⟩ := hread (by cbv)
  refine ⟨holds, portable, hdoc, hread, hquery ?_ ?_ ?_ false false id⟩
  · simp [doc, Document.Filled, Value.Filled, Value.isScalar, Value.children]
  · simp [doc, Document.root, Value.Named, Value.keys, Entries.keys]
  · simp [doc, Document.root, indexBound]

end Data

end NestedQuery
