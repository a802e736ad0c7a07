import NestedQuery.Proofs.Decoding

/-!
# Decoding in phases

What a component decodes to can be told in four looks at the whole of it, each of which may refuse
it: at its escapes, at the bytes that they and the `+`s spell, at its characters, and at its
question marks (`Phases.decode`). The single pass, which goes on past a defect that a later look is
to find, comes to the same result: `decode_eq_phases`.
-/

namespace NestedQuery.Percent

namespace Phases

variable {α : Type}

/-- What `f` finds at the first position at which it finds anything, with that position. -/
def leftmost? (f : List UInt8 → Option α) (bytes : List UInt8) : Option (α × Nat) :=
  (List.range bytes.length).findSome? fun i => (f (bytes.drop i)).map (·, i)

/-- Every `%` starts an escape. -/
def checkEscapes (offset : Nat) (bytes : List UInt8) : Result Unit :=
  match leftmost? malformed? bytes with
  | some (_, i) => .error (.invalidPercentEncoding (offset + i))
  | none => .ok ()

/-- What the component spells is UTF-8. -/
def readText (spaceAsPlus : Bool) (offset : Nat) (bytes : List UInt8) : Result String :=
  match Utf8.decode? (unescape (spaces spaceAsPlus bytes)) with
  | none => .error (.invalidUtf8 offset)
  | some text => .ok text

/-- There is no control, raw or escaped, and no raw space. -/
def checkCharacters (offset : Nat) (bytes : List UInt8) : Result Unit :=
  match leftmost? forbidden? bytes with
  | some (b, i) => .error (.invalidCharacter (Char.ofNat b.toNat) (offset + i))
  | none => .ok ()

/-- There is no raw `?`. -/
def checkQuestionMarks (offset : Nat) (bytes : List UInt8) : Result Unit :=
  match leftmost? question? bytes with
  | some (_, i) => .error (.unexpectedQuestionMark (offset + i))
  | none => .ok ()

/-- The text of the component `bytes`, which starts at `offset`, in four looks. -/
def decode (spaceAsPlus : Bool) (offset : Nat) (bytes : List UInt8) : Result String := do
  checkEscapes offset bytes
  let text ← readText spaceAsPlus offset bytes
  checkCharacters offset bytes
  checkQuestionMarks offset bytes
  return text

/-- The walk from byte to byte stops at the first position at which there is something. -/
theorem first?_eq_leftmost? (f : List UInt8 → Option α) (index : Nat) (bytes : List UInt8) :
    first? f index bytes = (leftmost? f bytes).map fun found => (found.1, index + found.2) := by
  induction bytes generalizing index with
  | nil => rfl
  | cons b rest ih =>
    have hrest : leftmost? f (b :: rest) =
        ((f (b :: rest)).map (·, 0)).or
          ((leftmost? f rest).map fun found => (found.1, found.2 + 1)) := by
      have hlater : ((List.range rest.length).map Nat.succ).findSome?
          (fun i => (f ((b :: rest).drop i)).map (·, i)) =
            (leftmost? f rest).map fun found => (found.1, found.2 + 1) := by
        rw [leftmost?, List.findSome?_map, List.map_findSome?]
        congr 1
        funext i
        rw [Function.comp_apply, Function.comp_apply, List.drop_succ_cons, Option.map_map]
        rfl
      rw [leftmost?, List.length_cons, List.range_succ_eq_map, List.findSome?_cons, hlater,
        List.drop_zero]
      cases f (b :: rest) <;> rfl
    rw [first?, ih, hrest, Option.map_or, Option.map_map, Option.map_map]
    congr 2
    funext found
    rw [Function.comp_apply, Nat.add_right_comm, Nat.add_assoc]

end Phases

/-- The single pass over a component and the four looks at it come to the same result. -/
theorem decode_eq_phases (spaceAsPlus : Bool) (offset : Nat) (bytes : List UInt8) :
    decode spaceAsPlus offset bytes = Phases.decode spaceAsPlus offset bytes := by
  rw [decode_eq]
  simp only [Phases.first?_eq_leftmost?]
  unfold Phases.decode Phases.checkEscapes Phases.readText Phases.checkCharacters
    Phases.checkQuestionMarks
  cases Phases.leftmost? malformed? bytes with
  | some found => rfl
  | none =>
    cases Utf8.decode? (unescape (spaces spaceAsPlus bytes)) with
    | none => rfl
    | some text =>
      cases Phases.leftmost? forbidden? bytes with
      | some found => rfl
      | none => cases Phases.leftmost? question? bytes <;> rfl

end NestedQuery.Percent
