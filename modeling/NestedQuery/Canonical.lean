import NestedQuery.Canonical.KeyStack
import NestedQuery.Config
import NestedQuery.Document

/-! # Writing documents

The canonical query of a document has one pair for each text in it, in document order; every list
position is written as an index. The writer keeps a stack of the containers it is in, so that deep
documents need no deep recursion. -/

namespace NestedQuery

namespace Canonical

/-- A container that is being written, with the children still to come. -/
inductive Level where
  | list (position : Nat) (pending : List Value)
  | map (pending : List (String × Value))

/-- How a container leads to one of its children. -/
inductive Step where
  | name (key : String)
  | index (position : Nat)

def Step.segment : Step → Segment
  | .name key => .name key
  | .index position => .index position

def Step.push (step : Step) (key : KeyStack) : KeyStack :=
  match step with
  | .name text => key.pushName text
  | .index position => key.pushIndex position

namespace Level

/-- The next child with the step to it, and the level without it. -/
def next? : Level → Option (Step × Value × Level)
  | .list position (item :: items) => some (.index position, item, .list (position + 1) items)
  | .map ((name, value) :: entries) => some (.name name, value, .map entries)
  | _ => none

/-- The number of steps it takes to write what is left of a level. -/
def weight : Level → Nat
  | .list _ pending => 1 + 2 * Value.weightItems pending
  | .map pending => 1 + 2 * Value.weightEntries pending

def weightAll : List Level → Nat
  | [] => 0
  | level :: levels => level.weight + weightAll levels

theorem weight_list (position : Nat) (pending : List Value) :
    (list position pending).weight = 1 + 2 * Value.weightItems pending := rfl

theorem weight_map (pending : List (String × Value)) :
    (map pending).weight = 1 + 2 * Value.weightEntries pending := rfl

theorem weight_next? {level rest : Level} {step : Step} {value : Value}
    (h : level.next? = some (step, value, rest)) :
    level.weight = 2 * value.weight + rest.weight := by
  match level, h with
  | .list _ (_ :: _), rfl => simp only [weight, Value.weightItems]; omega
  | .map (_ :: _), rfl => simp only [weight, Value.weightEntries]; omega

theorem weight_pos (level : Level) : 0 < level.weight := by
  cases level <;> simp only [weight] <;> omega

end Level

/-- What has been written. -/
structure Output where
  bytes : ByteArray := .empty
  started : Bool := false

/-- Adds a pair, after a `&` unless it is the first. -/
def Output.pair (out : Output) (spaceAsPlus : Bool) (key : ByteArray) (text : String) : Output :=
  let bytes := if out.started then out.bytes.push Byte.ampersand else out.bytes
  ⟨(bytes ++ key).push Byte.equals ++ (Percent.encode spaceAsPlus text).toByteArray, true⟩

/-- Writes the pending children of the levels, those of the innermost level first. The key holds a
segment for each level but the outermost. -/
def write (spaceAsPlus : Bool) (key : KeyStack) (out : Output) : List Level → Output
  | [] => out
  | level :: levels =>
    match _h : level.next? with
    | none => write spaceAsPlus (if levels.isEmpty then key else key.pop) out levels
    | some (step, value, rest) =>
      let key := step.push key
      match value with
      | .scalar text =>
        write spaceAsPlus key.pop (out.pair spaceAsPlus key.bytes text) (rest :: levels)
      | .list items => write spaceAsPlus key out (.list 0 items :: rest :: levels)
      | .map entries => write spaceAsPlus key out (.map entries :: rest :: levels)
termination_by levels => Level.weightAll levels
decreasing_by
  · have := level.weight_pos
    simp only [Level.weightAll]; omega
  all_goals
    have := Level.weight_next? _h
    simp only [Value.weight] at this
    simp only [Level.weightAll, Level.weight_list, Level.weight_map]; omega

/-- The canonical query as bytes, all of them ASCII. -/
def bytes (config : Config) (doc : Document) : ByteArray :=
  (write config.spaceAsPlus { spaceAsPlus := config.spaceAsPlus } {} [.map doc.entries]).bytes

/-- Text of bytes that are all ASCII. -/
def asciiText (bytes : ByteArray) : String :=
  String.ofList (bytes.data.toList.map fun b => Char.ofNat b.toNat)

end Canonical

/-- The canonical query of a document. -/
def Document.stringify (config : Config) (doc : Document) : String :=
  Canonical.asciiText (Canonical.bytes config doc)

end NestedQuery
