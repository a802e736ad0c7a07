import NestedQuery.Data.Document
import NestedQuery.Proofs.Controls
import NestedQuery.Proofs.Same

/-!
# Data read back from its query

Data that becomes a document has no key twice (`distinct_of_encode`) and no control character
(`Document.checkControls_eq_ok_iff`), but may have an empty key on the way to a text, which the
reader skips, or a hollow item in front of a text, which leaves a gap. `parse_toQuery_iff`: the
query of the data reads back as its document exactly if it has neither.
-/

namespace NestedQuery

namespace Data

/-- An entry is only added under a new key. -/
theorem distinct_of_addEntry {key : String} {value : Option Value}
    {done next : List (String × Value)} (hdone : (Value.map done).Everywhere Value.Distinct)
    (hvalue : ∀ v ∈ value, v.Everywhere Value.Distinct)
    (h : addEntry key value done = .ok next) : (Value.map next).Everywhere Value.Distinct := by
  unfold addEntry at h
  split at h
  · cases h
    exact hdone
  · rename_i v
    split at h
    · cases h
    · rename_i hnew
      cases h
      have hkey := Entries.not_mem_keys_of_lookup (Option.not_isSome_iff_eq_none.1 hnew)
      rw [Value.Everywhere.map_iff, Value.distinct_map] at hdone ⊢
      refine ⟨?_, fun e he => ?_⟩
      · rw [Entries.keys, List.map_append]
        exact hdone.1.append (List.nodup_singleton key) (by simpa using hkey)
      · rcases List.mem_append.1 he with he | he
        · exact hdone.2 e he
        · rw [List.mem_singleton.1 he]
          exact hvalue v rfl

theorem distinct_list {items : List Value} (h : ∀ v ∈ items, v.Everywhere Value.Distinct) :
    (Value.list items).Everywhere Value.Distinct :=
  Value.Everywhere.list_iff.2 ⟨Value.distinct_list items, h⟩

theorem distinct_nil : (Value.map []).Everywhere Value.Distinct := by
  simp [Entries.keys]

theorem distinct_singleton (key : String) {v : Value} (h : v.Everywhere Value.Distinct) :
    (Value.map [(key, v)]).Everywhere Value.Distinct := by
  simpa [Entries.keys] using h

theorem distinct_fill {value : Option Value} (h : ∀ v ∈ value, v.Everywhere Value.Distinct) :
    (fill value).Everywhere Value.Distinct := by
  cases value with
  | none => simp [fill]
  | some v => exact h v rfl

mutual

/-- No map that data becomes has a key twice. -/
theorem distinct_of_encode : ∀ (data : Data) {value : Option Value}, data.encode = .ok value →
    ∀ v ∈ value, v.Everywhere Value.Distinct
  | .absent, _, h => by cases h; exact nofun
  | .present inner, _, h => by rw [encode] at h; exact distinct_of_encode inner h
  | .newtype inner, _, h => by rw [encode] at h; exact distinct_of_encode inner h
  | .unit, _, h | .bool _, _, h | .int _, _, h | .single _, _, h | .double _, _, h | .char _, _, h
  | .text _, _, h | .unitVariant _, _, h => by
    cases h
    simp
  | .bytes bs, _, h => by
    rw [encode] at h
    obtain ⟨text, -, h⟩ := Result.bind_eq_ok.1 h
    cases h
    simp
  | .seq items, _, h => by
    rw [encode] at h
    obtain ⟨values, hvalues, h⟩ := Result.bind_eq_ok.1 h
    cases h
    rintro _ ⟨⟩
    exact distinct_list (distinct_of_encodeItems items hvalues)
  | .map entries, _, h => by
    rw [encode] at h
    obtain ⟨done, hdone, h⟩ := Result.bind_eq_ok.1 h
    cases h
    rintro _ ⟨⟩
    exact distinct_of_encodeEntries entries distinct_nil hdone
  | .struct fields, _, h => by
    rw [encode] at h
    obtain ⟨done, hdone, h⟩ := Result.bind_eq_ok.1 h
    cases h
    rintro _ ⟨⟩
    exact distinct_of_encodeFields fields distinct_nil hdone
  | .newtypeVariant variant inner, _, h => by
    rw [encode] at h
    obtain ⟨value, hvalue, h⟩ := Result.bind_eq_ok.1 h
    cases h
    rintro _ ⟨⟩
    exact distinct_singleton variant (distinct_fill (distinct_of_encode inner hvalue))
  | .tupleVariant variant items, _, h => by
    rw [encode] at h
    obtain ⟨values, hvalues, h⟩ := Result.bind_eq_ok.1 h
    cases h
    rintro _ ⟨⟩
    exact distinct_singleton variant (distinct_list (distinct_of_encodeItems items hvalues))
  | .structVariant variant fields, _, h => by
    rw [encode] at h
    obtain ⟨done, hdone, h⟩ := Result.bind_eq_ok.1 h
    cases h
    rintro _ ⟨⟩
    exact distinct_singleton variant
      (distinct_of_encodeFields fields distinct_nil hdone)
  | .valueOnly _, _, h => by cases h
  | .keyOnly key, _, h => by
    rw [encode] at h
    obtain ⟨_, -, h⟩ := Result.bind_eq_ok.1 h
    cases h
    rintro _ ⟨⟩
    exact distinct_nil

theorem distinct_of_encodeItems : ∀ (items : List Data) {values : List Value},
    encodeItems items = .ok values → ∀ v ∈ values, v.Everywhere Value.Distinct
  | [], _, h => by cases h; exact nofun
  | item :: items, _, h => by
    rw [encodeItems] at h
    obtain ⟨value, hvalue, h⟩ := Result.bind_eq_ok.1 h
    obtain ⟨values, hvalues, h⟩ := Result.bind_eq_ok.1 h
    cases h
    rintro v (_ | ⟨_, hv⟩)
    · exact distinct_fill (distinct_of_encode item hvalue)
    · exact distinct_of_encodeItems items hvalues v hv

theorem distinct_of_encodeEntries : ∀ (entries : List (Data × Data))
    {done next : List (String × Value)}, (Value.map done).Everywhere Value.Distinct →
    encodeEntries done entries = .ok next → (Value.map next).Everywhere Value.Distinct
  | [], _, _, hdone, h => by cases h; exact hdone
  | (key, value) :: entries, _, _, hdone, h => by
    rw [encodeEntries] at h
    obtain ⟨name, -, h⟩ := Result.bind_eq_ok.1 h
    obtain ⟨v, hv, h⟩ := Result.bind_eq_ok.1 h
    obtain ⟨next, hnext, h⟩ := Result.bind_eq_ok.1 h
    exact distinct_of_encodeEntries entries
      (distinct_of_addEntry hdone (distinct_of_encode value hv) hnext) h

theorem distinct_of_encodeFields : ∀ (fields : List (String × Data))
    {done next : List (String × Value)}, (Value.map done).Everywhere Value.Distinct →
    encodeFields done fields = .ok next → (Value.map next).Everywhere Value.Distinct
  | [], _, _, hdone, h => by cases h; exact hdone
  | (name, value) :: fields, _, _, hdone, h => by
    rw [encodeFields] at h
    obtain ⟨v, hv, h⟩ := Result.bind_eq_ok.1 h
    obtain ⟨next, hnext, h⟩ := Result.bind_eq_ok.1 h
    exact distinct_of_encodeFields fields
      (distinct_of_addEntry hdone (distinct_of_encode value hv) hnext) h

end

variable {data : Data} {doc : Document}

theorem distinct_and_printable_of_toDocument (h : data.toDocument = .ok doc) :
    doc.root.Everywhere Value.Distinct ∧ doc.root.Everywhere Value.Printable := by
  rw [toDocument] at h
  obtain ⟨value, hvalue, h⟩ := Result.bind_eq_ok.1 h
  split at h
  · cases h
    simp [Document.root, Document.empty, Entries.keys]
  · rename_i entries
    obtain ⟨_, hcheck, h⟩ := Result.bind_eq_ok.1 h
    cases h
    exact ⟨distinct_of_encode data hvalue _ rfl, Document.checkControls_eq_ok_iff.1 hcheck⟩
  · cases h
  · cases h

/-- Data is read back from its query as the document it becomes, without the hollow parts, exactly
if no key on the way to a text is empty and hollow items come last in every list. -/
theorem parse_toQuery_iff (h : data.toDocument = .ok doc)
    (bounded : doc.root.Everywhere Value.Bounded) (spaceAsPlus : Bool) :
    ∃ query, data.toQuery { spaceAsPlus } = .ok query ∧
      ((∃ d, Query.parseText { spaceAsPlus } query = .ok d ∧ d.same doc.prune = true) ↔
        (∀ leaf ∈ doc.leaves, .name "" ∉ leaf.1.steps) ∧ doc.root.Everywhere Value.Dense) := by
  obtain ⟨distinct, printable⟩ := distinct_and_printable_of_toDocument h
  have regular : doc.Regular := distinct.regular bounded
  have regular_prune : doc.prune.Regular := Value.regular_prune regular
  have distinct_prune := regular_prune.mono fun _ h => h.distinct
  have admits := Config.admits_of_unlimited spaceAsPlus doc.leaves
  refine ⟨doc.stringify { spaceAsPlus }, by rw [toQuery, h]; rfl, ?_, ?_⟩
  · rintro ⟨d, hread, hsame⟩
    obtain ⟨writes, tree, htree, rfl, -⟩ := Query.exists_writes_of_parse hread
    -- both documents have distinct keys, so being equal is having the same texts in the same places
    have hdistinct := (Tree.holds_of_ofWrites htree).distinct_finish
    have spellable := Document.spellable_of_parse_stringify id admits regular hread
      (Value.mem_leaves_iff_of_same hdistinct distinct_prune hsame)
    exact ⟨spellable.named, spellable.dense⟩
  · rintro ⟨named, dense⟩
    refine ⟨doc.prune, Document.parse_stringify_of_spellable id admits regular ?_,
      Value.same_self distinct_prune⟩
    exact ⟨doc.text_of_printable printable, doc.key_of_printable printable, named, dense⟩

/-- An empty list behind an item with a text does no harm. -/
theorem parse_toQuery_of_hollow_last :
    let doc : Document := ⟨[("a", .list [.scalar "x", .list []])]⟩
    toDocument (.struct [("a", .seq [.text "x", .seq []])]) = .ok doc ∧
      doc.root.Everywhere Value.Bounded ∧ doc.root.Everywhere Value.Dense := by
  intro doc
  have h : toDocument (.struct [("a", .seq [.text "x", .seq []])]) = .ok doc := by cbv
  have bounded : doc.root.Everywhere Value.Bounded := by
    simp [doc, Document.root, indexBound]
  obtain ⟨query, hquery, hiff⟩ := parse_toQuery_iff h bounded false
  have hwritten : toQuery {} (.struct [("a", .seq [.text "x", .seq []])]) = .ok "a[0]=x" := by cbv
  obtain rfl := Except.ok.inj (hquery.symm.trans hwritten)
  exact ⟨h, bounded, (hiff.1 ⟨⟨[("a", .list [.scalar "x"])]⟩, by cbv, by cbv⟩).2⟩

/-- A text under an empty key is written, but the reader skips it. -/
theorem not_parse_toQuery_of_empty_key :
    ¬ ∀ (data : Data) (doc : Document) (query : String), data.toDocument = .ok doc →
      data.toQuery {} = .ok query →
      ∃ d, Query.parseText {} query = .ok d ∧ d.same doc.prune = true := by
  intro h
  obtain ⟨d, hread, hsame⟩ := h (.map [(.text "", .text "x")]) ⟨[("", .scalar "x")]⟩ "=x"
    (by cbv) (by cbv)
  have hskip : Query.parseText {} "=x" = .ok ⟨[]⟩ := by cbv
  obtain rfl := Except.ok.inj (hread.symm.trans hskip)
  have hdiffer : Document.same ⟨[]⟩ (Document.prune ⟨[("", .scalar "x")]⟩) = false := by cbv
  rw [hdiffer] at hsame
  cases hsame

example : toQuery {} (.struct [("a", .seq [.seq [], .text "x"])]) = .ok "a[1]=x" := by cbv

example : Query.parseText {} "a[1]=x" = .error (.duplicateKey "a[1]") := by cbv

end Data

end NestedQuery
