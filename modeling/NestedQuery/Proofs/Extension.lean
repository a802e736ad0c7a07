import NestedQuery.Proofs.Limits

/-!
# Longer queries

More pairs behind a query only add to its document. A write leaves every text and every key where
it is and adds at the end of one list or map (`growsTo_of_grow`), so the document of a query is a
growth prefix of that of a longer one. An error of a query is there for good: `parse_append`.
-/

namespace NestedQuery

namespace Value

mutual

/-- Whether a value is a growth prefix of another one: texts are equal, and lists and maps go on
behind what is there, which may itself have grown. -/
def GrowsTo : Value → Value → Prop
  | .scalar s, .scalar t => s = t
  | .list as, .list bs => GrowsToItems as bs
  | .map as, .map bs => GrowsToEntries as bs
  | _, _ => False

def GrowsToItems : List Value → List Value → Prop
  | [], _ => True
  | a :: as, b :: bs => GrowsTo a b ∧ GrowsToItems as bs
  | _ :: _, [] => False

def GrowsToEntries : List (String × Value) → List (String × Value) → Prop
  | [], _ => True
  | (key, a) :: as, (other, b) :: bs => key = other ∧ GrowsTo a b ∧ GrowsToEntries as bs
  | _ :: _, [] => False

end

mutual

theorem GrowsTo.refl : ∀ v : Value, v.GrowsTo v
  | .scalar _ => rfl
  | .list items => growsToItems_refl items
  | .map entries => growsToEntries_refl entries

theorem growsToItems_refl : ∀ items : List Value, GrowsToItems items items
  | [] => trivial
  | item :: items => ⟨GrowsTo.refl item, growsToItems_refl items⟩

theorem growsToEntries_refl : ∀ entries : List (String × Value), GrowsToEntries entries entries
  | [] => trivial
  | (_, value) :: entries => ⟨rfl, GrowsTo.refl value, growsToEntries_refl entries⟩

end

mutual

theorem growsTo_trans : ∀ (a : Value) {b c : Value}, a.GrowsTo b → b.GrowsTo c → a.GrowsTo c
  | .scalar _, .scalar _, .scalar _, hab, hbc => Eq.trans hab hbc
  | .list as, .list _, .list _, hab, hbc => growsToItems_trans as hab hbc
  | .map as, .map _, .map _, hab, hbc => growsToEntries_trans as hab hbc

theorem growsToItems_trans : ∀ (as : List Value) {bs cs : List Value},
    GrowsToItems as bs → GrowsToItems bs cs → GrowsToItems as cs
  | [], _, _, _, _ => trivial
  | a :: as, _ :: _, _ :: _, ⟨hab, has⟩, ⟨hbc, hbs⟩ =>
    ⟨growsTo_trans a hab hbc, growsToItems_trans as has hbs⟩

theorem growsToEntries_trans : ∀ (as : List (String × Value)) {bs cs : List (String × Value)},
    GrowsToEntries as bs → GrowsToEntries bs cs → GrowsToEntries as cs
  | [], _, _, _, _ => trivial
  | (_, a) :: as, _ :: _, _ :: _, ⟨hkey, hab, has⟩, ⟨hother, hbc, hbs⟩ =>
    ⟨hkey.trans hother, growsTo_trans a hab hbc, growsToEntries_trans as has hbs⟩

end

/-! ### Changes that grow -/

theorem growsToItems_append (items later : List Value) : GrowsToItems items (items ++ later) := by
  induction items with
  | nil => exact trivial
  | cons item items ih => exact ⟨GrowsTo.refl item, ih⟩

theorem growsToItems_set {items : List Value} {position : Nat} {new : Value}
    (h : ∀ old ∈ items[position]?, old.GrowsTo new) :
    GrowsToItems items (items.set position new) := by
  induction items generalizing position with
  | nil => exact trivial
  | cons item items ih =>
    cases position with
    | zero => exact ⟨h item rfl, growsToItems_refl items⟩
    | succ position => exact ⟨GrowsTo.refl item, ih h⟩

theorem growsToEntries_put {entries : List (String × Value)} {key : String} {new : Value}
    (h : ∀ old ∈ entries.lookup key, old.GrowsTo new) :
    GrowsToEntries entries (Entries.put key new entries) := by
  induction entries with
  | nil => exact trivial
  | cons entry entries ih =>
    obtain ⟨other, value⟩ := entry
    rw [Entries.put]
    split
    · rename_i heq
      subst heq
      exact ⟨rfl, h value List.lookup_cons_self, growsToEntries_refl entries⟩
    · rename_i hne
      rw [List.lookup_cons, beq_eq_false_iff_ne.2 (Ne.symm hne)] at h
      exact ⟨rfl, GrowsTo.refl value, ih h⟩

end Value

/-! ### Writes -/

namespace Node
variable {s : Segment} {o : Opening} {node node' c : Node} {text : String} {path : List Segment}

/-- A container grows with what is in its slot. -/
theorem growsTo_put_of_open? (h : open? s (some node) = some o)
    (hchild : ∀ old ∈ o.child, old.value.GrowsTo c.value) :
    node.value.GrowsTo (o.put c).value := by
  match node, s with
  | .map entries, .name key =>
    cases h
    show Value.GrowsToEntries (valueEntries entries) (valueEntries (Entries.put key c entries))
    rw [valueEntries_put]
    refine Value.growsToEntries_put fun old hold => ?_
    rw [lookup_valueEntries] at hold
    obtain ⟨child, hmem, rfl⟩ := Option.map_eq_some_iff.1 hold
    exact hchild child hmem
  | .list .append items, .append =>
    cases h
    show Value.GrowsToItems (valueItems items.toList) (valueItems (items.push c).toList)
    rw [Array.toList_push, valueItems_eq_map, valueItems_eq_map, List.map_append]
    exact Value.growsToItems_append _ _
  | .list .indexed items, .index position =>
    rw [open?] at h
    split_ifs at h with hlt heq
    · cases h
      show Value.GrowsToItems (valueItems items.toList)
        (valueItems (items.set position c).toList)
      rw [Array.toList_set, valueItems_eq_map, valueItems_eq_map, List.map_set]
      refine Value.growsToItems_set fun old hold => ?_
      rw [List.getElem?_map, Array.getElem?_toList, Array.getElem?_eq_getElem hlt] at hold
      cases hold
      exact hchild _ rfl
    · cases h
      show Value.GrowsToItems (valueItems items.toList) (valueItems (items.push c).toList)
      rw [Array.toList_push, valueItems_eq_map, valueItems_eq_map, List.map_append]
      exact Value.growsToItems_append _ _

theorem growsTo_of_grow (h : grow text path (some node) = some node') :
    node.value.GrowsTo node'.value := by
  induction path generalizing node node' with
  | nil => simp [grow, insert] at h
  | cons s path ih =>
    rw [grow_cons] at h
    obtain ⟨o, ho, h⟩ := Option.bind_eq_some_iff.1 h
    obtain ⟨c, hc, rfl⟩ := Option.map_eq_some_iff.1 h
    refine growsTo_put_of_open? ho fun old hold => ih ?_
    rwa [hold] at hc

end Node

namespace Tree
variable {tree tree' : Tree} {writes : List (KeyPath × String)}

theorem growsTo_of_insert {path : KeyPath} {text : String}
    (h : tree.insert path text = .ok tree') : tree.finish.root.GrowsTo tree'.finish.root := by
  rw [finish_eq, finish_eq]
  by_cases hempty : tree.entries = []
  · rw [hempty]
    exact trivial
  · have hgrow := insert_eq_ok_iff.1 h
    rw [node?_of_ne_nil hempty] at hgrow
    exact Node.growsTo_of_grow hgrow

theorem growsTo_of_foldlM
    (h : writes.foldlM (fun tree write => tree.insert write.1 write.2) tree = .ok tree') :
    tree.finish.root.GrowsTo tree'.finish.root := by
  induction writes generalizing tree with
  | nil =>
    cases h
    exact Value.GrowsTo.refl _
  | cons write writes ih =>
    rw [List.foldlM_cons, Result.bind_eq_ok] at h
    obtain ⟨next, hinsert, h⟩ := h
    exact Value.growsTo_trans _ (growsTo_of_insert hinsert) (ih h)

end Tree

/-! ### Queries -/

namespace Query
variable {config : Config} {front back : List UInt8}

theorem body_append (front back : List UInt8) :
    body (front ++ Byte.ampersand :: back) =
      ((body front).1 ++ Byte.ampersand :: back, (body front).2) := by
  cases front with
  | nil => rfl
  | cons b front =>
    rw [List.cons_append, body, body]
    split <;> rfl

theorem located_append (offset : Nat) (front back : List (List UInt8)) :
    ∃ later, located offset (front ++ back) = located offset front ++ located later back := by
  induction front generalizing offset with
  | nil => exact ⟨offset, rfl⟩
  | cons segment front ih =>
    obtain ⟨later, hlater⟩ := ih (offset + segment.length + 1)
    refine ⟨later, ?_⟩
    rw [List.cons_append, located, located, hlater]
    split <;> rfl

/-- The segments of a query stay where they are when more pairs follow. -/
theorem locatedIn_append (front back : List UInt8) :
    ∃ later, locatedIn (front ++ Byte.ampersand :: back) = locatedIn front ++ later := by
  obtain ⟨offset, hoffset⟩ :=
    located_append (body front).2 (segments (body front).1) (segments back)
  refine ⟨located offset (segments back), ?_⟩
  have hsegments : segments ((body front).1 ++ Byte.ampersand :: back) =
      segments (body front).1 ++ segments back := by
    simp only [segments_eq_splitOn, List.splitOn_append_cons_self]
  rw [locatedIn, body_append, hsegments, hoffset]
  rfl

/-- More pairs behind a query neither mend an error nor undo what has been read. -/
theorem parse_append (front back : List UInt8) (config : Config) :
    (config.maxLength = none → config.maxParams = none → ∀ e, parse config front = .error e →
      parse config (front ++ Byte.ampersand :: back) = .error e) ∧
    ∀ doc', parse config (front ++ Byte.ampersand :: back) = .ok doc' →
      ∃ doc, parse config front = .ok doc ∧ doc.root.GrowsTo doc'.root := by
  obtain ⟨later, hlater⟩ := locatedIn_append front back
  constructor
  -- the pairs of the first query come first, so its error ends the reading of both
  · intro hlength hparams e h
    have within (limit : Option Nat) (hlimit : limit = none) (n : Nat) : Config.Within limit n :=
      hlimit ▸ Config.within_none n
    rw [parse_of_within (within _ hlength _) (within _ hparams _)] at h ⊢
    rw [hlater, List.foldlM_append]
    cases hread : (locatedIn front).foldlM (fun tree p => readPair config p.1 p.2 tree) .empty with
    | ok tree => rw [hread] at h; cases h
    | error e' => rw [hread] at h; cases h; rfl
  · intro doc' h
    obtain ⟨hlength, hparams⟩ := within_of_parse h
    rw [parse_of_within hlength hparams, Result.map_eq_ok, hlater] at h
    obtain ⟨tree', hread, rfl⟩ := h
    rw [List.foldlM_append, Result.bind_eq_ok] at hread
    obtain ⟨tree, hread, hrest⟩ := hread
    refine ⟨tree.finish, ?_, ?_⟩
    · rw [parse_of_within, hread]
      · rfl
      · intro n hn
        have := hlength n hn
        rw [List.length_append] at this
        omega
      · intro n hn
        have := hparams n hn
        rw [pairs_eq, hlater, List.map_append, List.length_append, ← pairs_eq] at this
        omega
    · obtain ⟨writes, -, hwrites⟩ := foldlM_readPair_eq_ok.1 hrest
      exact Tree.growsTo_of_foldlM hwrites

/-- The list of the first query goes on in the longer one, and a clash in front is reported before a
broken key behind it. -/
theorem parse_append_list_and_clash :
    let doc : Document := ⟨[("a", .list [.scalar "1"])]⟩
    let doc' : Document := ⟨[("a", .list [.scalar "1", .scalar "2"]), ("b", .scalar "3")]⟩
    (parse {} (Utf8.encode "a[]=1" ++ Byte.ampersand :: Utf8.encode "a[]=2&b=3") = .ok doc' ∧
      parse {} (Utf8.encode "a[]=1") = .ok doc ∧ doc.root.GrowsTo doc'.root) ∧
      parse {} (Utf8.encode "a=1&a=2") = .error (.duplicateKey "a") ∧
        parse {} (Utf8.encode "a=1&a=2" ++ Byte.ampersand :: Utf8.encode "b]=3") =
          .error (.duplicateKey "a") := by
  intro doc doc'
  have hlong : parse {} (Utf8.encode "a[]=1" ++ Byte.ampersand :: Utf8.encode "a[]=2&b=3") =
      .ok doc' := by cbv
  have hshort : parse {} (Utf8.encode "a[]=1") = .ok doc := by cbv
  obtain ⟨d, hread, hgrows⟩ := (parse_append _ _ {}).2 doc' hlong
  obtain rfl := Except.ok.inj (hread.symm.trans hshort)
  have herror : parse {} (Utf8.encode "a=1&a=2") = .error (.duplicateKey "a") := by cbv
  exact ⟨⟨hlong, hshort, hgrows⟩, herror, (parse_append _ _ {}).1 rfl rfl _ herror⟩

end Query

end NestedQuery
