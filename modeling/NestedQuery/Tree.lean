import NestedQuery.Document
import NestedQuery.Error

/-! # Trees under construction

A document grows one write at a time. The first write to a list fixes how its items are addressed,
by `[]` or by index, and an item can only be added at the end. Two writes that cannot both hold are
a conflict, which `insert` reports for the second one. -/

namespace NestedQuery

/-- How the items of a list are addressed. -/
inductive ListStyle where
  | append
  | indexed
  deriving DecidableEq, Repr

inductive Node where
  | leaf (text : String)
  | list (style : ListStyle) (items : Array Node)
  | map (entries : List (String × Node))
  deriving Inhabited, Repr

namespace Node

/-- The container that holds `inner` alone under `segment`: a new list has no position but 0. -/
def wrap (segment : Segment) (inner : Node) : Option Node :=
  match segment with
  | .name key => some (.map [(key, inner)])
  | .index position => if position = 0 then some (.list .indexed #[inner]) else none
  | .append => some (.list .append #[inner])

/-- A new subtree that holds `text` at `path` and nothing else. -/
def build (text : String) (path : List Segment) : Option Node :=
  path.foldr (fun segment inner => inner.bind (wrap segment)) (some (.leaf text))

/-- Writes `text` at `path` below a node: descends as far as the path is there and hangs a new
subtree where it ends. `none` is a conflict. -/
def insert (text : String) : List Segment → Node → Option Node
  | .name key :: path, .map entries =>
    (Entries.update? key
      (fun
        | some child => insert text path child
        | none => build text path)
      entries).map .map
  | .append :: path, .list .append items =>
    (build text path).map fun new => .list .append (items.push new)
  | .index position :: path, .list .indexed items =>
    if h : position < items.size then
      (insert text path items[position]).map fun new => .list .indexed (items.set position new)
    else if position = items.size then
      (build text path).map fun new => .list .indexed (items.push new)
    else none
  | _, _ => none

end Node

/-- The map at the root of a document under construction. -/
structure Tree where
  entries : List (String × Node)
  deriving Inhabited, Repr

namespace Tree

def empty : Tree := ⟨[]⟩

/-- Writes `text` at `path`, a new root key at the end. -/
def insert (path : KeyPath) (text : String) (tree : Tree) : Result Tree :=
  let written :=
    Entries.update? path.root
      (fun
        | some child => Node.insert text path.segments child
        | none => Node.build text path.segments)
      tree.entries
  match written with
  | some entries => .ok ⟨entries⟩
  | none => .error (.duplicateKey path.render)

end Tree

end NestedQuery
