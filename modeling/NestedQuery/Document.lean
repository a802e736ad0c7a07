import NestedQuery.Entries
import NestedQuery.KeyPath

/-! # Documents

What a query means: a map from keys to values, each a text, a list of values or a map again. The
entries of every map stand in order of insertion and have distinct keys. -/

namespace NestedQuery

inductive Value where
  | scalar (text : String)
  | list (items : List Value)
  | map (entries : List (String × Value))
  deriving Inhabited, Repr

namespace Value

def isScalar : Value → Bool
  | .scalar _ => true
  | _ => false

def text? : Value → Option String
  | .scalar text => some text
  | _ => none

def items? : Value → Option (List Value)
  | .list items => some items
  | _ => none

def entries? : Value → Option (List (String × Value))
  | .map entries => some entries
  | _ => none

/-- The values one level below. -/
def children : Value → List Value
  | .scalar _ => []
  | .list items => items
  | .map entries => entries.map Prod.snd

mutual

/-- The number of values in a tree, the value itself included. -/
def weight : Value → Nat
  | .scalar _ => 1
  | .list items => 1 + weightItems items
  | .map entries => 1 + weightEntries entries

def weightItems : List Value → Nat
  | [] => 0
  | item :: items => weight item + weightItems items

def weightEntries : List (String × Value) → Nat
  | [] => 0
  | (_, value) :: entries => weight value + weightEntries entries

end

theorem weight_pos (v : Value) : 0 < v.weight := by
  cases v <;> simp only [weight] <;> omega

theorem weightItems_append (as bs : List Value) :
    weightItems (as ++ bs) = weightItems as + weightItems bs := by
  induction as with
  | nil => simp [weightItems]
  | cons a as ih => simp [weightItems, ih, Nat.add_assoc]

theorem weightEntries_eq (entries : List (String × Value)) :
    weightEntries entries = weightItems (entries.map Prod.snd) := by
  induction entries with
  | nil => rfl
  | cons e es ih => rcases e with ⟨k, v⟩; simp [weightEntries, weightItems, ih]

theorem weight_eq (v : Value) : v.weight = 1 + weightItems v.children := by
  cases v <;> simp [weight, children, weightItems, weightEntries_eq]

/-- The value one bracket group further down. -/
def child? (value : Value) : Segment → Option Value
  | .name key => value.entries?.bind (·.lookup key)
  | .index position => value.items?.bind (·[position]?)
  | .append => none

end Value

structure Document where
  entries : List (String × Value)
  deriving Inhabited, Repr

namespace Document

def empty : Document := ⟨[]⟩

/-- A document of given entries. A repeated key keeps its first position and its last value. -/
def ofList (pairs : List (String × Value)) : Document :=
  ⟨Entries.ofList pairs⟩

def size (doc : Document) : Nat :=
  doc.entries.length

def isEmpty (doc : Document) : Bool :=
  doc.entries.isEmpty

def keys (doc : Document) : List String :=
  Entries.keys doc.entries

/-- The value at the place a path names. -/
def at? (doc : Document) (path : KeyPath) : Option Value :=
  path.segments.foldl (fun value segment => value.bind (·.child? segment))
    (doc.entries.lookup path.root)

end Document

end NestedQuery
