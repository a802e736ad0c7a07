import NestedQuery.Canonical
import NestedQuery.Data.Encode
import NestedQuery.Document.Control

/-! # Data as queries

A document is made from data that encodes to a map, and its canonical query is what the data is
written as. -/

namespace NestedQuery

namespace Data

/-- The document that data becomes; an absent option becomes the empty one. -/
def toDocument (data : Data) : Result Document := do
  match ← data.encode with
  | none => return .empty
  | some (.map entries) =>
    let doc : Document := ⟨entries⟩
    doc.checkControls
    return doc
  | some (.list _) => .error (.misfit (.topLevel "sequence"))
  | some (.scalar _) => .error (.misfit (.topLevel "primitive"))

/-- The query that data is written as. -/
def toQuery (config : Config) (data : Data) : Result String := do
  let doc ← data.toDocument
  return doc.stringify config

end Data

/-- Fills a buffer from its start with as many of the bytes as it has room for. -/
def fillBuffer (buffer bytes : List UInt8) : List UInt8 :=
  bytes.take buffer.length ++ buffer.drop bytes.length

/-- Writes data into a buffer of fixed size, and returns the buffer with the outcome. A query too
long for the buffer fills it before the write fails. -/
def Data.writeTo (config : Config) (buffer : List UInt8) (data : Data) :
    List UInt8 × Result Unit :=
  match data.toQuery config with
  | .error e => (buffer, .error e)
  | .ok query =>
    let bytes := Utf8.encode query
    let outcome :=
      if bytes.length ≤ buffer.length then .ok ()
      else .error (.io "failed to write whole buffer")
    (fillBuffer buffer bytes, outcome)

end NestedQuery
