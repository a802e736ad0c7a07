import NestedQuery.Document

/-! # Nesting of documents

The number of lists and maps around the deepest value, those of the document itself apart. A
worklist keeps the walk free of recursion on the depth. -/

namespace NestedQuery

namespace Value

/-- The greatest depth among `sofar` and those of the pending values and all below them. -/
def deepest (sofar : Nat) : List (Value × Nat) → Nat
  | [] => sofar
  | (v, depth) :: pending =>
    deepest (max sofar depth) (v.children.map (·, depth + 1) ++ pending)
termination_by pending => weightItems (pending.map Prod.fst)
decreasing_by
  simp [weightItems_append, weightItems, weight_eq v, Function.comp_def]

end Value

def Document.nesting (doc : Document) : Nat :=
  Value.deepest 0 (doc.entries.map fun entry => (entry.2, 0))

end NestedQuery
