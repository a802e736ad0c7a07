import NestedQuery.Tree

/-! # Finished trees as documents

A finished tree forgets how its lists were addressed. The conversion keeps a stack of half-converted
containers of its own, so that the depth of a key is not bounded by that of recursion. -/

namespace NestedQuery

namespace Node

mutual

/-- The number of passes it takes to convert a node and all below it: one before the node, and for
each child those that it takes and one behind it. -/
def weight : Node → Nat
  | .leaf _ => 1
  | .list _ ⟨items⟩ => 1 + weightItems items
  | .map entries => 1 + weightEntries entries

def weightItems : List Node → Nat
  | [] => 0
  | item :: items => weight item + 1 + weightItems items

def weightEntries : List (String × Node) → Nat
  | [] => 0
  | (_, node) :: entries => weight node + 1 + weightEntries entries

end

end Node

/-- A container whose children are being converted: those done, and those still to come after the
one in progress, which in a map stands under `key`. -/
inductive Frame where
  | list (done : Array Value) (pending : List Node)
  | map (done : Array (String × Value)) (key : String) (pending : List (String × Node))

namespace Frame

/-- The value of a text, or the frame of a container with all its children to come. -/
def opened : Node → Value ⊕ Frame
  | .leaf text => .inl (.scalar text)
  | .list _ items => .inr (.list #[] items.toList)
  | .map entries => .inr (.map #[] "" entries)

/-- The next child, and the frame with it in progress. -/
def next? : Frame → Option (Node × Frame)
  | .list done (item :: items) => some (item, .list done items)
  | .map done _ ((key, node) :: entries) => some (node, .map done key entries)
  | .list _ [] | .map _ _ [] => none

/-- Takes the value of the child in progress. -/
def accept (value : Value) : Frame → Frame
  | .list done pending => .list (done.push value) pending
  | .map done key pending => .map (done.push (key, value)) "" pending

/-- The container of the children that are done. -/
def close : Frame → Value
  | .list done _ => .list done.toList
  | .map done _ _ => .map done.toList

def weight : Frame → Nat
  | .list _ pending => 1 + Node.weightItems pending
  | .map _ _ pending => 1 + Node.weightEntries pending

theorem weight_of_leaf {node : Node} {value : Value} (h : opened node = .inl value) :
    node.weight = 1 := by
  cases node <;> cases h
  rfl

theorem weight_of_container {node : Node} {frame : Frame} (h : opened node = .inr frame) :
    node.weight = frame.weight := by
  cases node <;> cases h <;> rfl

theorem weight_accept (value : Value) (frame : Frame) :
    (frame.accept value).weight = frame.weight := by
  cases frame <;> rfl

def weightAll : List Frame → Nat
  | [] => 0
  | frame :: frames => frame.weight + weightAll frames

end Frame

/-- Where a conversion looks: before a node or behind a value. -/
inductive Focus where
  | enter (node : Node)
  | leave (value : Value)

def Focus.weight : Focus → Nat
  | .enter node => node.weight
  | .leave _ => 0

/-- Where a conversion stands: the focus, and the frames around it from the innermost on. -/
structure Conversion where
  focus : Focus
  frames : List Frame

namespace Conversion

def weight (c : Conversion) : Nat :=
  c.focus.weight + Frame.weightAll c.frames

/-- Goes on with the next child of a frame, or behind the frame if there is none. -/
def advance (frame : Frame) (frames : List Frame) : Conversion :=
  match frame.next? with
  | some (child, frame) => ⟨.enter child, frame :: frames⟩
  | none => ⟨.leave frame.close, frames⟩

/-- One pass, which ends the conversion with a value outside all frames. -/
def step : Conversion → Value ⊕ Conversion
  | ⟨.enter node, frames⟩ =>
    match Frame.opened node with
    | .inl value => .inr ⟨.leave value, frames⟩
    | .inr frame => .inr (advance frame frames)
  | ⟨.leave value, frame :: frames⟩ => .inr (advance (frame.accept value) frames)
  | ⟨.leave value, []⟩ => .inl value

theorem weight_advance (frame : Frame) (frames : List Frame) :
    (advance frame frames).weight + 1 = frame.weight + Frame.weightAll frames := by
  unfold advance
  rcases frame with ⟨done, _ | ⟨item, items⟩⟩ | ⟨done, key, _ | ⟨⟨next, node⟩, entries⟩⟩ <;>
    simp only [Frame.next?, weight, Focus.weight, Frame.weightAll, Frame.weight, Node.weightItems,
      Node.weightEntries] <;>
    omega

/-- What a pass does that is not the last. -/
theorem step_cases {c next : Conversion} (h : c.step = .inr next) :
    (∃ node value frames, c = ⟨.enter node, frames⟩ ∧ Frame.opened node = .inl value ∧
      next = ⟨.leave value, frames⟩) ∨
    (∃ node frame frames, c = ⟨.enter node, frames⟩ ∧ Frame.opened node = .inr frame ∧
      next = advance frame frames) ∨
    ∃ value frame frames, c = ⟨.leave value, frame :: frames⟩ ∧
      next = advance (frame.accept value) frames := by
  obtain ⟨node | value, frames⟩ := c
  · rw [step] at h
    cases hopened : Frame.opened node with
    | inl value =>
      rw [hopened] at h
      cases h
      exact .inl ⟨node, value, frames, rfl, hopened, rfl⟩
    | inr frame =>
      rw [hopened] at h
      cases h
      exact .inr (.inl ⟨node, frame, frames, rfl, hopened, rfl⟩)
  · cases frames with
    | nil => cases h
    | cons frame frames =>
      cases h
      exact .inr (.inr ⟨value, frame, frames, rfl, rfl⟩)

/-- Every pass but the last leaves one pass less to go. -/
theorem weight_step {c next : Conversion} (h : c.step = .inr next) :
    next.weight + 1 = c.weight := by
  obtain ⟨node, value, frames, rfl, hleaf, rfl⟩ | ⟨node, frame, frames, rfl, hframe, rfl⟩ |
    ⟨value, frame, frames, rfl, rfl⟩ := step_cases h
  · rw [weight, weight, Focus.weight, Focus.weight, Frame.weight_of_leaf hleaf, Nat.zero_add,
      Nat.add_comm]
  · rw [weight_advance, weight, Focus.weight, Frame.weight_of_container hframe]
  · rw [weight_advance, Frame.weight_accept, weight, Focus.weight, Frame.weightAll, Nat.zero_add]

/-- The value that the conversion ends with. -/
def run (c : Conversion) : Value :=
  match _h : c.step with
  | .inl value => value
  | .inr next => next.run
termination_by c.weight
decreasing_by
  have := weight_step _h
  omega

end Conversion

def Node.toValue (node : Node) : Value :=
  Conversion.run ⟨.enter node, []⟩

/-- The document that a tree has grown into. -/
def Tree.finish (tree : Tree) : Document :=
  ⟨tree.entries.map fun (key, node) => (key, node.toValue)⟩

end NestedQuery
