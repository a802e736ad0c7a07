import NestedQuery.Tree.Finish

/-!
# Conversion with a stack

`Node.value` converts a tree by recursion on it. Wherever the conversion with a stack of frames
stands, its `outcome` is what the focus becomes by recursion, put into the frames around it with
their pending children converted too. No pass changes the outcome (`outcome_step`) and every pass
but the last leaves one less to go, so the conversion ends with it (`run_eq_outcome`,
`after_weight`). What it makes of a node does not depend on the frames around it
(`after_within`): `toValue_by_recursion`.
-/

namespace NestedQuery

namespace Node

mutual

/-- The value that a tree has grown into. -/
def value : Node → Value
  | .leaf text => .scalar text
  | .list _ ⟨items⟩ => .list (valueItems items)
  | .map entries => .map (valueEntries entries)

def valueItems : List Node → List Value
  | [] => []
  | item :: items => value item :: valueItems items

def valueEntries : List (String × Node) → List (String × Value)
  | [] => []
  | (key, node) :: entries => (key, value node) :: valueEntries entries

end

theorem valueEntries_eq (entries : List (String × Node)) :
    valueEntries entries = entries.map fun entry => (entry.1, entry.2.value) := by
  induction entries with
  | nil => rfl
  | cons entry entries ih => simp [valueEntries, ih]

theorem valueItems_eq_map (items : List Node) : valueItems items = items.map value := by
  induction items with
  | nil => rfl
  | cons item items ih => rw [valueItems, ih, List.map_cons]

end Node

namespace Frame
variable {node child : Node} {frame frame' : Frame} {v : Value}

/-- What a frame becomes when its pending children are converted. -/
def value : Frame → Value
  | .list done pending => .list (done.toList ++ Node.valueItems pending)
  | .map done _ pending => .map (done.toList ++ Node.valueEntries pending)

theorem value_of_leaf (h : opened node = .inl v) : v = node.value := by
  cases node <;> cases h
  rfl

theorem value_of_container (h : opened node = .inr frame) : frame.value = node.value := by
  cases node <;> cases h <;> rfl

theorem value_of_next? (h : frame.next? = some (child, frame')) :
    (frame'.accept child.value).value = frame.value := by
  rcases frame with ⟨done, _ | ⟨item, items⟩⟩ | ⟨done, key, _ | ⟨⟨next, node⟩, entries⟩⟩ <;>
    cases h <;>
    simp only [accept, value, Array.toList_push, List.append_assoc, Node.valueItems,
      Node.valueEntries, List.singleton_append]

theorem close_of_next? (h : frame.next? = none) : frame.close = frame.value := by
  rcases frame with ⟨done, _ | ⟨item, items⟩⟩ | ⟨done, key, _ | ⟨⟨next, node⟩, entries⟩⟩ <;>
    cases h <;>
    simp only [close, value, Node.valueItems, Node.valueEntries, List.append_nil]

end Frame

def Focus.value : Focus → Value
  | .enter node => node.value
  | .leave value => value

namespace Conversion
variable {c next : Conversion} {n : Nat} {v : Value}

/-- What the conversion comes to. -/
def outcome (c : Conversion) : Value :=
  c.frames.foldl (fun value frame => (frame.accept value).value) c.focus.value

theorem outcome_advance (frame : Frame) (frames : List Frame) :
    (advance frame frames).outcome = outcome ⟨.leave frame.value, frames⟩ := by
  unfold advance
  cases hnext : frame.next? with
  | none =>
    dsimp only
    rw [Frame.close_of_next? hnext]
  | some next =>
    obtain ⟨child, frame'⟩ := next
    dsimp only [outcome, Focus.value]
    rw [List.foldl_cons, Frame.value_of_next? hnext]

theorem outcome_step (h : c.step = .inr next) : next.outcome = c.outcome := by
  obtain ⟨node, value, frames, rfl, hleaf, rfl⟩ | ⟨node, frame, frames, rfl, hframe, rfl⟩ |
    ⟨value, frame, frames, rfl, rfl⟩ := step_cases h
  · rw [Frame.value_of_leaf hleaf]
    rfl
  · rw [outcome_advance, Frame.value_of_container hframe]
    rfl
  · rw [outcome_advance]
    rfl

/-- The conversion ends behind a value outside all frames and nowhere else. -/
theorem step_eq_inl_iff : c.step = .inl v ↔ c = ⟨.leave v, []⟩ := by
  constructor
  · intro h
    obtain ⟨node | value, frames⟩ := c
    · rw [step] at h
      cases hopened : Frame.opened node <;> rw [hopened] at h <;> cases h
    · cases frames <;> cases h
      rfl
  · rintro rfl
    rfl

theorem run_eq_outcome (c : Conversion) : c.run = c.outcome := by
  fun_induction run c with
  | case1 c value hend =>
    rw [step_eq_inl_iff.1 hend]
    rfl
  | case2 c next hstep ih => rw [ih, outcome_step hstep]

/-! ### Passes -/

/-- Where the conversion stands after `n` passes, unless it is over before. -/
def after : Nat → Conversion → Option Conversion
  | 0, c => some c
  | n + 1, c =>
    match c.step with
    | .inl _ => none
    | .inr next => after n next

theorem after_weight (c : Conversion) : after c.weight c = some ⟨.leave c.outcome, []⟩ := by
  induction hweight : c.weight generalizing c with
  | zero =>
    cases hstep : c.step with
    | inl value =>
      rw [step_eq_inl_iff.1 hstep]
      rfl
    | inr next =>
      have hnext := weight_step hstep
      omega
  | succ n ih =>
    cases hstep : c.step with
    | inl value =>
      rw [step_eq_inl_iff.1 hstep] at hweight
      cases hweight
    | inr next =>
      have hnext := weight_step hstep
      rw [after, hstep, ← outcome_step hstep]
      exact ih next (by omega)

/-- The conversion within more frames. -/
def within (c : Conversion) (frames : List Frame) : Conversion :=
  ⟨c.focus, c.frames ++ frames⟩

theorem within_advance (frame : Frame) (inner frames : List Frame) :
    (advance frame inner).within frames = advance frame (inner ++ frames) := by
  unfold advance
  cases frame.next? <;> rfl

theorem step_within (h : c.step = .inr next) (frames : List Frame) :
    (c.within frames).step = .inr (next.within frames) := by
  obtain ⟨node, value, inner, rfl, hleaf, rfl⟩ | ⟨node, frame, inner, rfl, hframe, rfl⟩ |
    ⟨value, frame, inner, rfl, rfl⟩ := step_cases h
  · rw [within, step, hleaf]
    rfl
  · rw [within, step, hframe, within_advance]
  · rw [within_advance]
    rfl

theorem after_within (h : after n c = some next) (frames : List Frame) :
    after n (c.within frames) = some (next.within frames) := by
  induction n generalizing c with
  | zero =>
    cases h
    rfl
  | succ n ih =>
    rw [after] at h ⊢
    cases hstep : c.step with
    | inl value =>
      rw [hstep] at h
      cases h
    | inr next =>
      rw [hstep] at h
      rw [step_within hstep]
      exact ih h

end Conversion

namespace Node

theorem toValue_eq (node : Node) : node.toValue = node.value :=
  Conversion.run_eq_outcome ⟨.enter node, []⟩

/-- Inside any frames, the conversion of a node is over after as many passes as its weight tells and
leaves the frames as they are, and its value is that of the conversion by recursion. -/
theorem toValue_by_recursion :
    (∀ (node : Node) (frames : List Frame),
      Conversion.after node.weight ⟨.enter node, frames⟩ = some ⟨.leave node.toValue, frames⟩) ∧
    (∀ value, Conversion.step ⟨.leave value, []⟩ = .inl value) ∧
    (∀ text, (leaf text).toValue = .scalar text) ∧
    (∀ style items, (list style items).toValue = .list (items.toList.map toValue)) ∧
    ∀ entries, (map entries).toValue =
      .map (entries.map fun entry => (entry.1, entry.2.toValue)) := by
  have hvalue : toValue = value := funext toValue_eq
  rw [hvalue]
  refine ⟨fun node frames => ?_, fun value => rfl, fun text => rfl, fun style items => ?_,
    fun entries => ?_⟩
  · exact Conversion.after_within (Conversion.after_weight ⟨.enter node, []⟩) frames
  · rw [value, valueItems_eq_map]
  · rw [value, valueEntries_eq]

end Node

end NestedQuery
