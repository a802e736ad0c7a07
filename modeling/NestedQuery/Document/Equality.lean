import NestedQuery.Document

/-! # Equality of documents

Two documents are equal if they hold the same texts at the same places: the order of list items
counts, the order of map entries does not. -/

namespace NestedQuery

namespace Value

mutual

/-- Equality up to the order of map entries. -/
def same : Value → Value → Bool
  | .scalar a, .scalar b => a == b
  | .list as, .list bs => sameItems as bs
  | .map as, .map bs => as.length == bs.length && sameEntries as bs
  | _, _ => false

def sameItems : List Value → List Value → Bool
  | [], [] => true
  | a :: as, b :: bs => same a b && sameItems as bs
  | _, _ => false

/-- Whether each entry of the first map has its like in the second. -/
def sameEntries : List (String × Value) → List (String × Value) → Bool
  | [], _ => true
  | (key, a) :: as, bs =>
    (match bs.lookup key with
      | some b => same a b
      | none => false) && sameEntries as bs

end

end Value

def Document.same (a b : Document) : Bool :=
  Value.same (.map a.entries) (.map b.entries)

end NestedQuery
