/-! # Key paths

A key path names a place in a document: a root key and the bracket groups after it. -/

namespace NestedQuery

/-- One bracket group. -/
inductive Segment where
  /-- A key of a map. -/
  | name (text : String)
  /-- A position in a list. -/
  | index (position : Nat)
  /-- The next free position of a list. -/
  | append
  deriving DecidableEq, Repr

def Segment.render : Segment → String
  | .name text => "[" ++ text ++ "]"
  | .index position => "[" ++ toString position ++ "]"
  | .append => "[]"

structure KeyPath where
  root : String
  segments : List Segment
  deriving DecidableEq, Repr

namespace KeyPath

/-- The path with these steps, the first of which is the root. -/
def ofSteps : List Segment → KeyPath
  | .name root :: segments => ⟨root, segments⟩
  | segments => ⟨"", segments⟩

/-- The number of bracket groups: the root does not count. -/
def depth (path : KeyPath) : Nat :=
  path.segments.length

/-- The path as a key without any encoding. -/
def render (path : KeyPath) : String :=
  path.segments.foldl (fun key segment => key ++ segment.render) path.root

end KeyPath

end NestedQuery
