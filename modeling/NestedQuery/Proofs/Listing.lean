import NestedQuery.Canonical
import NestedQuery.Proofs.Leaves

/-!
# Canonical queries as listings

The writer walks a document with a stack of levels and one key buffer. `toList_bytes` says what
comes out: the pairs of the document's texts in order (`pair`), joined by `&`. The step is
`write_cons`: what is left of the innermost level is written first, and leaves the key as it was.
-/

namespace NestedQuery

namespace KeyStack

/-- Adds a segment below the root or a name at the root. -/
def push (key : KeyStack) : Segment → KeyStack
  | .name text => key.pushName text
  | .index position => key.pushIndex position
  | .append => key.pushBytes [Byte.openBracket, Byte.closeBracket]

def extend (key : KeyStack) (path : List Segment) : KeyStack :=
  path.foldl push key

end KeyStack

namespace Canonical

/-- The canonical spelling of a bracket group. -/
def segment (spaceAsPlus : Bool) : Segment → List UInt8
  | .name text => bracketName spaceAsPlus text
  | .index position => bracketIndex position
  | .append => [Byte.openBracket, Byte.closeBracket]

def key (spaceAsPlus : Bool) (path : KeyPath) : List UInt8 :=
  encodeName spaceAsPlus path.root ++ path.segments.flatMap (segment spaceAsPlus)

/-- The canonical spelling of a text and the path to it. -/
def pair (spaceAsPlus : Bool) (leaf : KeyPath × String) : List UInt8 :=
  key spaceAsPlus leaf.1 ++ Byte.equals :: Percent.encode spaceAsPlus leaf.2

/-! ### One key buffer for all keys -/

theorem bytes_push (stack : KeyStack) (h : stack.marks ≠ []) (s : Segment) :
    (stack.push s).bytes = stack.bytes ++ (segment stack.spaceAsPlus s).toByteArray := by
  cases s <;> simp [KeyStack.push, KeyStack.pushName, KeyStack.pushIndex, KeyStack.pushBytes,
    segment, h]

theorem marks_push (stack : KeyStack) (s : Segment) : (stack.push s).marks ≠ [] := by
  cases s <;> simp [KeyStack.push, KeyStack.pushName, KeyStack.pushIndex, KeyStack.pushBytes]

theorem spaceAsPlus_push (stack : KeyStack) (s : Segment) :
    (stack.push s).spaceAsPlus = stack.spaceAsPlus := by
  cases s <;> rfl

theorem bytes_extend (stack : KeyStack) (h : stack.marks ≠ []) (path : List Segment) :
    (stack.extend path).bytes.data.toList =
      stack.bytes.data.toList ++ path.flatMap (segment stack.spaceAsPlus) := by
  induction path generalizing stack with
  | nil => simp [KeyStack.extend]
  | cons s path ih =>
    rw [show stack.extend (s :: path) = (stack.push s).extend path from rfl,
      ih _ (marks_push stack s), bytes_push stack h, spaceAsPlus_push]
    simp

theorem bytes_extend_steps (spaceAsPlus : Bool) (path : KeyPath) :
    (KeyStack.extend { spaceAsPlus } path.steps).bytes.data.toList = key spaceAsPlus path := by
  rw [KeyPath.steps, show KeyStack.extend { spaceAsPlus } (.name path.root :: path.segments) =
    (KeyStack.push { spaceAsPlus } (.name path.root)).extend path.segments from rfl,
    bytes_extend _ (marks_push _ _), spaceAsPlus_push]
  simp [KeyStack.push, KeyStack.pushName, KeyStack.pushBytes, key]

theorem pop_push (step : Step) (key : KeyStack) : (step.push key).pop = key := by
  cases step <;> exact KeyStack.pop_pushBytes ..

/-! ### The walk -/

theorem Step.push_eq (step : Step) (key : KeyStack) : step.push key = key.push step.segment := by
  cases step <;> rfl

/-- What passes to a level from what is left behind its next child and, if that child is a
container, from the level of the child, holds of all levels. -/
theorem Level.next_induction {P : Level → Prop}
    (done : ∀ level : Level, level.next? = none → P level)
    (scalar : ∀ (level rest : Level) (step : Step) (text : String),
      level.next? = some (step, .scalar text, rest) → P rest → P level)
    (list : ∀ (level rest : Level) (step : Step) (items : List Value),
      level.next? = some (step, .list items, rest) → P (.list 0 items) → P rest → P level)
    (map : ∀ (level rest : Level) (step : Step) (entries : List (String × Value)),
      level.next? = some (step, .map entries, rest) → P (.map entries) → P rest → P level)
    (level : Level) : P level := by
  induction hw : level.weight using Nat.strongRecOn generalizing level with
  | ind w ih =>
    subst hw
    match h : level.next? with
    | none => exact done level h
    | some (step, value, rest) =>
      have hweight := Level.weight_next? h
      have hrest : P rest := ih _ (by have := value.weight_pos; omega) rest rfl
      cases value with
      | scalar text => exact scalar level rest step text h hrest
      | list items =>
        refine list level rest step items h (ih _ ?_ _ rfl) hrest
        rw [hweight, Level.weight_list, Value.weight]
        omega
      | map entries =>
        refine map level rest step entries h (ih _ ?_ _ rfl) hrest
        rw [hweight, Level.weight_map, Value.weight]
        omega

/-- The texts still to come in a level. -/
def Level.leaves : Level → List (List Segment × String)
  | .list position pending => Value.leavesItems position pending
  | .map pending => Value.leavesEntries pending

theorem Level.leaves_of_next? {level rest : Level} {step : Step} {value : Value}
    (h : level.next? = some (step, value, rest)) :
    level.leaves = value.leaves.map (under step.segment) ++ rest.leaves := by
  match level, h with
  | .list _ (_ :: _), rfl => rfl
  | .map (_ :: _), rfl => rfl

theorem Level.leaves_of_next?_eq_none {level : Level} (h : level.next? = none) :
    level.leaves = [] := by
  match level, h with
  | .list _ [], _ => rfl
  | .map [], _ => rfl

/-- Writes the pairs of leaves in turn, each with its path added to `key`. -/
def Output.pairs (out : Output) (spaceAsPlus : Bool) (key : KeyStack)
    (leaves : List (List Segment × String)) : Output :=
  leaves.foldl (fun out leaf => out.pair spaceAsPlus (key.extend leaf.1).bytes leaf.2) out

variable {spaceAsPlus : Bool}

theorem Output.pairs_cons (out : Output) (key : KeyStack) (leaf : List Segment × String)
    (leaves : List (List Segment × String)) :
    out.pairs spaceAsPlus key (leaf :: leaves) =
      (out.pair spaceAsPlus (key.extend leaf.1).bytes leaf.2).pairs spaceAsPlus key leaves :=
  rfl

theorem Output.pairs_append (out : Output) (key : KeyStack)
    (front back : List (List Segment × String)) :
    out.pairs spaceAsPlus key (front ++ back) =
      (out.pairs spaceAsPlus key front).pairs spaceAsPlus key back :=
  List.foldl_append

theorem Output.pairs_under (out : Output) (key : KeyStack) (s : Segment)
    (leaves : List (List Segment × String)) :
    out.pairs spaceAsPlus key (leaves.map (under s)) =
      out.pairs spaceAsPlus (key.push s) leaves :=
  List.foldl_map

theorem write_eq (key : KeyStack) (out : Output) (level : Level) (levels : List Level) :
    write spaceAsPlus key out (level :: levels) =
      match level.next? with
      | none => write spaceAsPlus (if levels.isEmpty then key else key.pop) out levels
      | some (step, .scalar text, rest) =>
        write spaceAsPlus key (out.pair spaceAsPlus (step.push key).bytes text) (rest :: levels)
      | some (step, .list items, rest) =>
        write spaceAsPlus (step.push key) out (.list 0 items :: rest :: levels)
      | some (step, .map entries, rest) =>
        write spaceAsPlus (step.push key) out (.map entries :: rest :: levels) := by
  rw [write]
  split
  · rename_i h
    rw [h]
  · rename_i step value rest h
    conv_rhs => rw [h]
    cases value with
    | scalar text =>
      dsimp only
      rw [pop_push]
    | list | map => rfl

theorem Output.pairs_next {level rest : Level} {step : Step} {value : Value}
    (h : level.next? = some (step, value, rest)) (out : Output) (key : KeyStack) :
    out.pairs spaceAsPlus key level.leaves =
      (out.pairs spaceAsPlus (step.push key) value.leaves).pairs spaceAsPlus key rest.leaves := by
  rw [Level.leaves_of_next? h, pairs_append, pairs_under, ← Step.push_eq]

/-- What is left of the innermost level is written first. -/
theorem write_cons (key : KeyStack) (out : Output) (level : Level) (levels : List Level) :
    write spaceAsPlus key out (level :: levels) =
      write spaceAsPlus (if levels.isEmpty then key else key.pop)
        (out.pairs spaceAsPlus key level.leaves) levels := by
  induction level using Level.next_induction generalizing key out levels with
  | done level h =>
    rw [write_eq, h, Level.leaves_of_next?_eq_none h]
    rfl
  | scalar level rest step text h ih =>
    rw [write_eq, h, Output.pairs_next h]
    exact ih ..
  -- a container is written as a level of its own, whose end pops the key again
  | list level rest step items h inner ih =>
    rw [write_eq, h, Output.pairs_next h]
    dsimp only
    rw [inner, List.isEmpty_cons, if_neg Bool.false_ne_true, pop_push, ih]
    rfl
  | map level rest step entries h inner ih =>
    rw [write_eq, h, Output.pairs_next h]
    dsimp only
    rw [inner, List.isEmpty_cons, if_neg Bool.false_ne_true, pop_push, ih]
    rfl

/-! ### The listing -/

theorem leaves_steps (doc : Document) :
    (doc.leaves.map fun leaf => (leaf.1.steps, leaf.2)) = doc.root.leaves := by
  simp only [Document.leaves, Document.root, Value.leaves, Value.leavesEntries_eq,
    List.map_flatMap, List.map_map]
  rfl

theorem toList_pair (out : Output) (key : ByteArray) (text : String) :
    (out.pair spaceAsPlus key text).bytes.data.toList =
      out.bytes.data.toList ++ (if out.started then [Byte.ampersand] else []) ++
        (key.data.toList ++ Byte.equals :: Percent.encode spaceAsPlus text) := by
  unfold Output.pair
  split <;> simp

theorem toList_pairs_of_started (out : Output) (h : out.started = true)
    (leaves : List (KeyPath × String)) :
    (out.pairs spaceAsPlus { spaceAsPlus }
        (leaves.map fun leaf => (leaf.1.steps, leaf.2))).bytes.data.toList =
      out.bytes.data.toList ++ leaves.flatMap fun leaf =>
        Byte.ampersand :: pair spaceAsPlus leaf := by
  induction leaves generalizing out with
  | nil => simp [Output.pairs]
  | cons leaf leaves ih =>
    rw [List.map_cons, Output.pairs_cons, ih _ rfl, toList_pair, bytes_extend_steps, h]
    simp [pair]

theorem intercalate_cons (separator : UInt8) (first : List UInt8) (others : List (List UInt8)) :
    List.intercalate [separator] (first :: others) = first ++ others.flatMap (separator :: ·) := by
  induction others generalizing first with
  | nil => simp [List.intercalate]
  | cons second others ih =>
    rw [List.intercalate, List.intersperse_cons_cons, List.flatten_cons, List.flatten_cons,
      ← List.intercalate, ih]
    simp

/-- The canonical query lists the texts of the document. -/
theorem toList_bytes (config : Config) (doc : Document) :
    (bytes config doc).data.toList =
      List.intercalate [Byte.ampersand] (doc.leaves.map (pair config.spaceAsPlus)) := by
  have walk : bytes config doc =
      (Output.pairs {} config.spaceAsPlus { spaceAsPlus := config.spaceAsPlus }
        (doc.leaves.map fun leaf => (leaf.1.steps, leaf.2))).bytes := by
    rw [bytes, write_cons, write, leaves_steps]
    rfl
  rw [walk]
  cases doc.leaves with
  | nil => rfl
  | cons leaf leaves =>
    rw [List.map_cons, Output.pairs_cons, toList_pairs_of_started _ rfl, toList_pair,
      bytes_extend_steps, List.map_cons, intercalate_cons, List.flatMap_map]
    simp [pair]

end Canonical

end NestedQuery
