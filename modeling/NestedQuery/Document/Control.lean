import NestedQuery.Canonical
import NestedQuery.Error
import NestedQuery.Text.Byte

/-! # Control characters in documents

No query spells a control character, so a document with one in a key or a text is refused. The
error names the first place that holds one: a key comes before the value under it. The check walks
the document as the writer does, with a stack of levels. -/

namespace NestedQuery

def hasControl (text : String) : Bool :=
  (Utf8.encode text).any Byte.isControl

namespace Canonical

def Step.hasControl : Step → Bool
  | .name key => NestedQuery.hasControl key
  | .index _ => false

/-- The key path of a place without any encoding, given the steps to it, the last one first. -/
def renderTrail (trail : List Step) : String :=
  (KeyPath.ofSteps (trail.reverse.map Step.segment)).render

/-- Checks the pending children of the levels, those of the innermost level first. The trail holds a
step for each level but the outermost, the last one first. -/
def check (trail : List Step) : List Level → Result Unit
  | [] => .ok ()
  | level :: levels =>
    match _h : level.next? with
    | none => check trail.tail levels
    | some (step, value, rest) =>
      let trail := step :: trail
      if step.hasControl then .error (.invalidKey (renderTrail trail))
      else match value with
        | .scalar text =>
          if hasControl text then .error (.invalidValue (renderTrail trail))
          else check trail.tail (rest :: levels)
        | .list items => check trail (.list 0 items :: rest :: levels)
        | .map entries => check trail (.map entries :: rest :: levels)
termination_by levels => Level.weightAll levels
decreasing_by
  · have := level.weight_pos
    simp only [Level.weightAll]; omega
  all_goals
    have := Level.weight_next? _h
    simp only [Value.weight] at this
    simp only [Level.weightAll, Level.weight_list, Level.weight_map]; omega

end Canonical

def Document.checkControls (doc : Document) : Result Unit :=
  Canonical.check [] [.map doc.entries]

end NestedQuery
