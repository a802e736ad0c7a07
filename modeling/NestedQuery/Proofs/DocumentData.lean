import NestedQuery.Proofs.Represents

/-!
# Documents as data

A document is itself data, and encodes to what it is made of (`encode_ofValue`). So it becomes
itself again, unless a key or a text in it holds a control character: `toDocument_ofDocument` names
the first of them.
-/

namespace NestedQuery.Data

mutual

theorem encode_ofValue : ∀ v : Value, v.Everywhere Value.Distinct →
    (ofValue v).encode = .ok (some v)
  | .scalar _, _ => rfl
  | .list items, distinct => by
    rw [ofValue, encode, encodeItems_ofItems items distinct.item]
    rfl
  | .map entries, distinct => by
    rw [ofValue, encode, encodeEntries_ofEntries [] entries distinct.here distinct.entry]
    rfl

theorem encodeItems_ofItems : ∀ items : List Value,
    (∀ v ∈ items, v.Everywhere Value.Distinct) → encodeItems (ofItems items) = .ok items
  | [], _ => rfl
  | item :: items, distinct => by
    obtain ⟨hitem, hitems⟩ := List.forall_mem_cons.1 distinct
    rw [ofItems, encodeItems, encode_ofValue item hitem, Result.ok_bind,
      encodeItems_ofItems items hitems]
    rfl

/-- No entry is refused, as none has the key of one before it. -/
theorem encodeEntries_ofEntries : ∀ done entries : List (String × Value),
    (Entries.keys (done ++ entries)).Nodup → (∀ e ∈ entries, e.2.Everywhere Value.Distinct) →
      encodeEntries done (ofEntries entries) = .ok (done ++ entries)
  | done, [], _, _ => by rw [List.append_nil]; rfl
  | done, (key, v) :: entries, hkeys, distinct => by
    obtain ⟨hv, hentries⟩ := List.forall_mem_cons.1 distinct
    have hkey : key ∉ Entries.keys done := fun hmem => by
      rw [Entries.keys, List.map_append] at hkeys
      exact (List.nodup_append.1 hkeys).2.2 key hmem key (List.mem_cons_self ..) rfl
    rw [List.append_cons] at hkeys ⊢
    rw [ofEntries, encodeEntries, encodeKey, Result.ok_bind, encode_ofValue v hv, Result.ok_bind,
      addEntry_of_not_mem hkey, Result.ok_bind, encodeEntries_ofEntries _ entries hkeys hentries]

end

/-- Only the check stands between a document and itself. -/
theorem toDocument_ofDocument_eq {doc : Document} (distinct : doc.root.Everywhere Value.Distinct) :
    (ofDocument doc).toDocument = (fun _ => doc) <$> doc.checkControls := by
  have hencode : (ofDocument doc).encode = .ok (some (.map doc.entries)) :=
    encode_ofValue doc.root distinct
  rw [toDocument, hencode]
  rfl

/-- A document without control characters becomes itself. Any other is refused for the first key or
text that holds one, a key before what stands under it, and the error tells the path to it. -/
theorem toDocument_ofDocument (doc : Document) (distinct : doc.root.Everywhere Value.Distinct) :
    (doc.root.Everywhere Value.Printable → (ofDocument doc).toDocument = .ok doc) ∧
      (¬ doc.root.Everywhere Value.Printable →
        ∃ front path content back, doc.contents = front ++ (path, content) :: back ∧
          (∀ c ∈ front, c.2.hasControl = false) ∧ content.hasControl = true ∧
          doc.Shows path content ∧
          (ofDocument doc).toDocument = .error (content.error path)) := by
  rw [toDocument_ofDocument_eq distinct]
  refine ⟨fun printable => ?_, fun h => ?_⟩
  · rw [Document.checkControls_eq_ok_iff.2 printable]
    rfl
  · obtain ⟨front, path, content, back, hsplit, hfront, hcontrol, herror⟩ :=
      Document.checkControls_eq_error h
    refine ⟨front, path, content, back, hsplit, hfront, hcontrol, ?_, by rw [herror]; rfl⟩
    exact Document.shows_of_mem_contents distinct (path, content) (by simp [hsplit])

/-- Empty containers on the way change nothing about the path, and a key comes before the text under
it. -/
theorem toDocument_ofDocument_of_empty_containers :
    let clean : Document := ⟨[("e", .list []), ("a", .list [.map [], .scalar "x"])]⟩
    let doc : Document := ⟨[("e", .list []),
      ("a", .list [.map [], .map [("b", .list [.list []]), ("c\x01", .scalar "\x7f")]])]⟩
    (ofDocument clean).toDocument = .ok clean ∧
      ∃ path content, doc.Shows path content ∧
        content.error path = .invalidKey "a[1][c\x01]" ∧
        (ofDocument doc).toDocument = .error (content.error path) := by
  intro clean doc
  have hclean : clean.root.Everywhere Value.Distinct := by
    simp [clean, Document.root, Entries.keys]
  have hdoc : doc.root.Everywhere Value.Distinct := by
    simp [doc, Document.root, Entries.keys]
  have hprintable : clean.root.Everywhere Value.Printable :=
    Document.checkControls_eq_ok_iff.1 (by cbv)
  have herror : (ofDocument doc).toDocument = .error (.invalidKey "a[1][c\x01]") := by cbv
  have hnot : ¬ doc.root.Everywhere Value.Printable := fun h => by
    rw [(toDocument_ofDocument doc hdoc).1 h] at herror
    cases herror
  obtain ⟨_, path, content, _, -, -, -, hshows, h⟩ := (toDocument_ofDocument doc hdoc).2 hnot
  refine ⟨(toDocument_ofDocument clean hclean).1 hprintable, path, content, hshows, ?_, h⟩
  exact Except.error.inj (h.symm.trans herror)

end NestedQuery.Data
