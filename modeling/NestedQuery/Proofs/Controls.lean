import NestedQuery.Proofs.RoundTrip

/-!
# What the control check finds

The check looks at the keys and texts of a document in turn, each key before what stands under it
(`Document.contents`), and fails for the first that holds a control character (`hasControl_iff`):
`checkControls_eq`. The step is `check_cons`: what is left of the innermost level is checked first,
and then the trail is as it was before that level was opened.
-/

namespace NestedQuery

theorem any_isControl_utf8EncodeChar (c : Char) :
    (String.utf8EncodeChar c).any Byte.isControl = true ↔ c.toNat ≤ 0x1F ∨ c.toNat = 0x7F := by
  by_cases hc : c.toNat < 0x80
  · have hbyte : (UInt8.ofNat c.toNat).toNat = c.toNat := by
      rw [UInt8.toNat_ofNat', Nat.mod_eq_of_lt (by omega)]
    rw [Utf8.utf8EncodeChar_ascii hc, List.any_cons, List.any_nil, Bool.or_false]
    simp [Byte.isControl, UInt8.le_iff_toNat_le, ← UInt8.toNat_inj, hbyte]
  · have hnone : (String.utf8EncodeChar c).any Byte.isControl = false := by
      refine List.any_eq_false.2 fun b hb hcontrol =>
        Utf8.not_ascii_of_mem_utf8EncodeChar hc b hb ?_
      have hsmall : b.toNat ≤ 0x1F ∨ b.toNat = 0x7F := by
        simpa [Byte.isControl, UInt8.le_iff_toNat_le, ← UInt8.toNat_inj] using hcontrol
      rw [UInt8.lt_iff_toNat_lt, show UInt8.toNat 0x80 = 0x80 from rfl]
      omega
    rw [hnone]
    simp only [Bool.false_eq_true, false_iff]
    omega

/-- The control characters are those below the space, and DEL. -/
theorem hasControl_iff {text : String} :
    hasControl text = true ↔ ∃ c ∈ text.toList, c.toNat ≤ 0x1F ∨ c.toNat = 0x7F := by
  rw [hasControl, ← text.ofList_toList, Utf8.encode_ofList, List.any_flatMap, List.any_eq_true,
    String.ofList_toList]
  exact exists_congr fun c => and_congr Iff.rfl (any_isControl_utf8EncodeChar c)

/-- What the check looks at: the key of an entry, or a text. -/
inductive Content where
  | key (name : String)
  | text (text : String)

namespace Content

def hasControl : Content → Bool
  | .key name => NestedQuery.hasControl name
  | .text s => NestedQuery.hasControl s

/-- The error for a control character in the key that a path ends in, or the text that stands there.
-/
def error (path : KeyPath) : Content → Error
  | .key _ => .invalidKey path.render
  | .text _ => .invalidValue path.render

/-- Whether the path to a value ends in the key, or the value is the text. -/
def StandsAt (path : List Segment) (v : Value) : Content → Prop
  | .key name => path.getLast? = some (.name name)
  | .text s => v = .scalar s

theorem StandsAt.cons {content : Content} {path : List Segment} {v : Value}
    (h : content.StandsAt path v) (s : Segment) : content.StandsAt (s :: path) v := by
  cases content with
  | text => exact h
  | key name => rw [StandsAt, List.getLast?_cons, show path.getLast? = _ from h, Option.getD_some]

end Content

namespace Value

mutual

/-- The keys and texts of a value in document order, each with the path to it, which for a key is
that to its entry. -/
def contents : Value → List (List Segment × Content)
  | .scalar text => [([], .text text)]
  | .list items => contentsItems 0 items
  | .map entries => contentsEntries entries

def contentsItems (position : Nat) : List Value → List (List Segment × Content)
  | [] => []
  | item :: items =>
    (contents item).map (under (.index position)) ++ contentsItems (position + 1) items

def contentsEntries : List (String × Value) → List (List Segment × Content)
  | [] => []
  | (key, value) :: entries =>
    ([.name key], .key key) :: (contents value).map (under (.name key)) ++ contentsEntries entries

end

end Value

namespace Document

/-- The keys and texts of a document in document order, each with its key path. -/
def contents (doc : Document) : List (KeyPath × Content) :=
  doc.entries.flatMap fun entry => (⟨entry.1, []⟩, .key entry.1) ::
    entry.2.contents.map fun content => (⟨entry.1, content.1⟩, content.2)

/-- Whether a path leads to the entry of the key, or to the text. -/
def Shows (doc : Document) (path : KeyPath) (content : Content) : Prop :=
  ∃ v, doc.at? path = some v ∧ content.StandsAt path.steps v

end Document

/-! ### Every key and every text -/

namespace Value
variable {Q : Content → Prop} {items : List Value} {entries : List (String × Value)}

theorem contentsEntries_eq (entries : List (String × Value)) :
    contentsEntries entries = entries.flatMap fun entry =>
      ([.name entry.1], .key entry.1) :: entry.2.contents.map (under (.name entry.1)) := by
  induction entries with
  | nil => rfl
  | cons e es ih => simp [contentsEntries, ih]

theorem contentsItems_eq (n : Nat) (items : List Value) :
    contentsItems n items =
      (items.zipIdx n).flatMap fun p => p.1.contents.map (under (.index p.2)) := by
  induction items generalizing n with
  | nil => rfl
  | cons v vs ih => rw [contentsItems, ih, List.zipIdx_cons, List.flatMap_cons]

theorem forall_contentsItems {n : Nat} :
    (∀ c ∈ contentsItems n items, Q c.2) ↔ ∀ v ∈ items, ∀ c ∈ v.contents, Q c.2 := by
  induction items generalizing n with
  | nil => simp [contentsItems]
  | cons v vs ih =>
    rw [contentsItems, List.forall_mem_append, ih, List.forall_mem_map, List.forall_mem_cons]
    rfl

theorem forall_contentsEntries :
    (∀ c ∈ contentsEntries entries, Q c.2) ↔
      ∀ e ∈ entries, Q (.key e.1) ∧ ∀ c ∈ e.2.contents, Q c.2 := by
  induction entries with
  | nil => simp [contentsEntries]
  | cons e es ih =>
    rw [contentsEntries, List.forall_mem_append, ih, List.forall_mem_cons, List.forall_mem_map,
      List.forall_mem_cons]
    rfl

/-- No control character stands anywhere in a tree exactly if none stands in its contents. -/
theorem everywhere_printable_iff {v : Value} :
    v.Everywhere Printable ↔ ∀ c ∈ v.contents, c.2.hasControl = false := by
  induction v using children_induction with
  | step v ih =>
    cases v with
    | scalar text => simp [contents, Content.hasControl]
    | list items =>
      rw [Everywhere.list_iff, contents, forall_contentsItems (Q := (·.hasControl = false)),
        and_iff_right (printable_list items)]
      exact forall₂_congr ih
    | map entries =>
      rw [Everywhere.map_iff, contents, forall_contentsEntries (Q := (·.hasControl = false)),
        printable_map, ← forall₂_and]
      exact forall₂_congr fun e he => and_congr Iff.rfl (ih e.2 (List.mem_map_of_mem he))

/-! ### Where they stand -/

/-- The texts of a value are among its contents. -/
theorem mem_contents_of_mem_leaves {v : Value} :
    ∀ leaf ∈ v.leaves, (leaf.1, .text leaf.2) ∈ v.contents := by
  induction v using children_induction with
  | step v ih =>
    intro leaf hleaf
    cases v with
    | scalar text =>
      rw [leaves, List.mem_singleton] at hleaf
      rw [hleaf]
      exact List.mem_singleton_self _
    | list items =>
      obtain ⟨i, hi, l, hl, rfl⟩ := exists_of_mem_leavesItems hleaf
      rw [contents, contentsItems_eq]
      exact mem_below_items_iff.2 ⟨i, hi, _, ih _ (List.getElem_mem hi) l hl, rfl⟩
    | map entries =>
      obtain ⟨e, he, l, hl, rfl⟩ := mem_leavesEntries.1 hleaf
      rw [contents, contentsEntries_eq]
      refine List.mem_flatMap.2 ⟨e, he, List.mem_cons_of_mem _ ?_⟩
      exact List.mem_map.2 ⟨_, ih _ (List.mem_map_of_mem he) l hl, rfl⟩

/-- The path to a key or a text leads to a value that it stands at. -/
theorem exists_foldl_child?_of_mem_contents {v : Value} (distinct : v.Everywhere Distinct) :
    ∀ c ∈ v.contents, ∃ w,
      c.1.foldl (fun value s => value.bind (·.child? s)) (some v) = some w ∧
        c.2.StandsAt c.1 w := by
  induction distinct with
  | @intro v here _ ih =>
    intro content hcontent
    cases v with
    | scalar text =>
      rw [contents, List.mem_singleton] at hcontent
      rw [hcontent]
      exact ⟨_, rfl, rfl⟩
    | list items =>
      rw [contents, contentsItems_eq] at hcontent
      obtain ⟨i, hi, c, hc, rfl⟩ := mem_below_items_iff.1 hcontent
      have hchild : (list items).child? (.index (0 + i)) = some items[i] := by
        rw [Nat.zero_add]
        exact List.getElem?_eq_getElem hi
      rw [under, List.foldl_cons, Option.bind_some, hchild]
      obtain ⟨w, hw, hstands⟩ := ih _ (List.getElem_mem hi) c hc
      exact ⟨w, hw, hstands.cons _⟩
    | map entries =>
      rw [contents, contentsEntries_eq, List.mem_flatMap] at hcontent
      obtain ⟨e, he, hcontent⟩ := hcontent
      have hchild : (map entries).child? (.name e.1) = some e.2 := Entries.lookup_of_mem here he
      rcases List.mem_cons.1 hcontent with rfl | hcontent
      · exact ⟨e.2, hchild, rfl⟩
      · obtain ⟨c, hc, rfl⟩ := List.mem_map.1 hcontent
        rw [under, List.foldl_cons, Option.bind_some, hchild]
        obtain ⟨w, hw, hstands⟩ := ih _ (List.mem_map_of_mem he) c hc
        exact ⟨w, hw, hstands.cons _⟩

end Value

/-! ### The check -/

/-- The first key or text below the path that holds a control character is refused. -/
def inspect (path : List Segment) (contents : List (List Segment × Content)) : Result Unit :=
  (contents.find? (·.2.hasControl)).elim (.ok ()) fun content =>
    .error (content.2.error (.ofSteps (path ++ content.1)))

theorem inspect_singleton (path : List Segment) (content : List Segment × Content) :
    inspect path [content] =
      if content.2.hasControl then .error (content.2.error (.ofSteps (path ++ content.1)))
      else .ok () := by
  rw [inspect, List.find?_singleton]
  cases content.2.hasControl <;> rfl

theorem inspect_append (path : List Segment) (front back : List (List Segment × Content)) :
    inspect path (front ++ back) = inspect path front >>= fun _ => inspect path back := by
  rw [inspect, inspect, List.find?_append]
  cases front.find? (·.2.hasControl) <;> rfl

theorem inspect_under (path : List Segment) (s : Segment)
    (contents : List (List Segment × Content)) :
    inspect path (contents.map (under s)) = inspect (path ++ [s]) contents := by
  rw [inspect, inspect, List.find?_map, Option.elim_map]
  simp only [under, List.append_assoc, Function.comp_def, List.singleton_append]

namespace Canonical

/-- The keys and texts still to come in a level. -/
def Level.contents : Level → List (List Segment × Content)
  | .list position pending => Value.contentsItems position pending
  | .map pending => Value.contentsEntries pending

/-- The key that a step goes to. -/
def Step.contents : Step → List (List Segment × Content)
  | .name key => [([.name key], .key key)]
  | .index _ => []

theorem Level.contents_of_next? {level rest : Level} {step : Step} {value : Value}
    (h : level.next? = some (step, value, rest)) :
    level.contents =
      step.contents ++ (value.contents.map (under step.segment) ++ rest.contents) := by
  match level, h with
  | .list _ (_ :: _), rfl => rfl
  | .map (_ :: _), rfl => rfl

theorem Level.contents_of_next?_eq_none {level : Level} (h : level.next? = none) :
    level.contents = [] := by
  match level, h with
  | .list _ [], _ => rfl
  | .map [], _ => rfl

/-- The path that a trail stands for. -/
def trailPath (trail : List Step) : List Segment :=
  trail.reverse.map Step.segment

theorem trailPath_cons (step : Step) (trail : List Step) :
    trailPath (step :: trail) = trailPath trail ++ [step.segment] := by
  simp [trailPath]

theorem inspect_step (step : Step) (trail : List Step) :
    inspect (trailPath trail) step.contents =
      if step.hasControl then .error (.invalidKey (renderTrail (step :: trail))) else .ok () := by
  cases step with
  | index position => rfl
  | name key =>
    rw [Step.contents, inspect_singleton, renderTrail, ← trailPath, trailPath_cons]
    rfl

theorem inspect_scalar (text : String) (trail : List Step) :
    inspect (trailPath trail) (Value.scalar text).contents =
      if hasControl text then .error (.invalidValue (renderTrail trail)) else .ok () := by
  rw [Value.contents, inspect_singleton, List.append_nil]
  rfl

theorem inspect_next {level rest : Level} {step : Step} {value : Value}
    (h : level.next? = some (step, value, rest)) (trail : List Step) :
    inspect (trailPath trail) level.contents =
      (if step.hasControl then .error (.invalidKey (renderTrail (step :: trail))) else .ok ()) >>=
        fun _ => inspect (trailPath (step :: trail)) value.contents >>= fun _ =>
          inspect (trailPath trail) rest.contents := by
  rw [Level.contents_of_next? h, inspect_append, inspect_append, inspect_under, inspect_step,
    trailPath_cons]

theorem check_eq (trail : List Step) (level : Level) (levels : List Level) :
    check trail (level :: levels) =
      match level.next? with
      | none => check trail.tail levels
      | some (step, value, rest) =>
        if step.hasControl then .error (.invalidKey (renderTrail (step :: trail)))
        else match value with
          | .scalar text =>
            if hasControl text then .error (.invalidValue (renderTrail (step :: trail)))
            else check trail (rest :: levels)
          | .list items => check (step :: trail) (.list 0 items :: rest :: levels)
          | .map entries => check (step :: trail) (.map entries :: rest :: levels) := by
  rw [check]
  split
  · rename_i h
    rw [h]
  · rename_i step value rest h
    conv_rhs => rw [h]
    cases value <;> rfl

/-- What is left of the innermost level is checked first. -/
theorem check_cons (trail : List Step) (level : Level) (levels : List Level) :
    check trail (level :: levels) =
      inspect (trailPath trail) level.contents >>= fun _ => check trail.tail levels := by
  induction level using Level.next_induction generalizing trail levels with
  | done level h =>
    rw [check_eq, h, Level.contents_of_next?_eq_none h]
    rfl
  | scalar level rest step text h ih =>
    rw [check_eq, h, inspect_next h, inspect_scalar]
    dsimp only
    split
    · rfl
    · split
      · rfl
      · exact ih ..
  -- a container is checked as a level of its own, whose end takes the step back
  | list level rest step items h inner ih =>
    rw [check_eq, h, inspect_next h]
    dsimp only
    split
    · rfl
    · rw [inner, List.tail_cons, ih, Result.ok_bind, bind_assoc]
      rfl
  | map level rest step entries h inner ih =>
    rw [check_eq, h, inspect_next h]
    dsimp only
    split
    · rfl
    · rw [inner, List.tail_cons, ih, Result.ok_bind, bind_assoc]
      rfl

end Canonical

namespace Document
variable {doc : Document}

theorem contents_steps (doc : Document) :
    (doc.contents.map fun c => (c.1.steps, c.2)) = doc.root.contents := by
  rw [contents, root, Value.contents, Value.contentsEntries_eq, List.map_flatMap]
  simp only [List.map_cons, List.map_map]
  rfl

/-- The check fails for the first key or text that holds a control character. -/
theorem checkControls_eq (doc : Document) :
    doc.checkControls = (doc.contents.find? (·.2.hasControl)).elim (.ok ()) fun content =>
      .error (content.2.error content.1) := by
  have walk : doc.checkControls = inspect [] doc.root.contents := by
    rw [checkControls, Canonical.check_cons, Canonical.check]
    exact bind_pure _
  rw [walk, inspect, ← contents_steps, List.find?_map, Option.elim_map]
  rfl

theorem printable_iff :
    doc.root.Everywhere Value.Printable ↔ ∀ c ∈ doc.contents, c.2.hasControl = false := by
  rw [Value.everywhere_printable_iff, ← contents_steps, List.forall_mem_map]

theorem checkControls_eq_ok_iff :
    doc.checkControls = .ok () ↔ doc.root.Everywhere Value.Printable := by
  rw [checkControls_eq, printable_iff]
  cases h : doc.contents.find? (·.2.hasControl) with
  | none => simpa using h
  | some content =>
    simp only [Option.elim_some, reduceCtorEq, false_iff]
    intro hclean
    simpa [hclean content (List.mem_of_find?_eq_some h)] using List.find?_some h

/-- What the check fails for is the first to hold a control character. -/
theorem checkControls_eq_error (h : ¬ doc.root.Everywhere Value.Printable) :
    ∃ front path content back, doc.contents = front ++ (path, content) :: back ∧
      (∀ c ∈ front, c.2.hasControl = false) ∧ content.hasControl = true ∧
      doc.checkControls = .error (content.error path) := by
  rw [← checkControls_eq_ok_iff, checkControls_eq] at h
  obtain ⟨⟨path, content⟩, hfind⟩ : ∃ c, doc.contents.find? (·.2.hasControl) = some c := by
    refine Option.ne_none_iff_exists'.1 fun hnone => h ?_
    rw [hnone, Option.elim_none]
  obtain ⟨hcontrol, front, back, hsplit, hfront⟩ := List.find?_eq_some_iff_append.1 hfind
  refine ⟨front, path, content, back, hsplit, by simpa using hfront, hcontrol, ?_⟩
  rw [checkControls_eq, hfind, Option.elim_some]

theorem shows_of_mem_contents (distinct : doc.root.Everywhere Value.Distinct) :
    ∀ c ∈ doc.contents, doc.Shows c.1 c.2 := fun c hc =>
  Value.exists_foldl_child?_of_mem_contents distinct (c.1.steps, c.2) <| by
    rw [← contents_steps]
    exact List.mem_map_of_mem hc

end Document

end NestedQuery
