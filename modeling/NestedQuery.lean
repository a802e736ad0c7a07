import NestedQuery.Document.Json
import NestedQuery.Proofs.Conflict
import NestedQuery.Proofs.DataQuery
import NestedQuery.Proofs.DocumentData
import NestedQuery.Proofs.Edits
import NestedQuery.Proofs.EnumReading
import NestedQuery.Proofs.Extension
import NestedQuery.Proofs.KeyMoves
import NestedQuery.Proofs.Levels
import NestedQuery.Proofs.Location
import NestedQuery.Proofs.Neutral
import NestedQuery.Proofs.Numbering
import NestedQuery.Proofs.Phases
import NestedQuery.Proofs.Placement
import NestedQuery.Proofs.PlainPath
import NestedQuery.Proofs.Reordering
import NestedQuery.Proofs.RoundTrip
import NestedQuery.Proofs.SpaceSpelling
import NestedQuery.Proofs.Spelling
import NestedQuery.Proofs.Symmetry
import NestedQuery.Proofs.TopLevel
import NestedQuery.Proofs.TypedRoundTrip
import NestedQuery.Proofs.Viable
import NestedQuery.Proofs.Visiting
import NestedQuery.Schema.Read
