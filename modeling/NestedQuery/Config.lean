/-! # Settings for reading and writing queries -/

namespace NestedQuery

/-- How spaces are spelled, and the ceilings of a reader: `none` stands for no limit. -/
structure Config where
  /-- Reads a raw `+` as a space and writes a space as `+`. -/
  spaceAsPlus : Bool := false
  /-- The most bytes an input may have, a leading `?` included. -/
  maxLength : Option Nat := none
  /-- The most pairs that are not empty. -/
  maxParams : Option Nat := none
  /-- The most bracket groups in one key. -/
  maxDepth : Option Nat := none
  deriving DecidableEq, Repr

/-- The same spelling of spaces without limits. -/
def Config.unlimited (config : Config) : Config :=
  { spaceAsPlus := config.spaceAsPlus }

end NestedQuery
