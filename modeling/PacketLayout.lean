import PacketLayout.Proofs.Placement
import PacketLayout.Access.Edit
import PacketLayout.Json.Reader
import PacketLayout.Json.Writer
import PacketLayout.Plan.Same
import PacketLayout.Definition.Json
import PacketLayout.Definition.Lookup
import PacketLayout.Proofs.Arrangement
import PacketLayout.Proofs.Resolved
import PacketLayout.Proofs.Slots
import PacketLayout.Proofs.BitUnits
import PacketLayout.Proofs.Extents
import PacketLayout.Proofs.Words
import PacketLayout.Proofs.Numbers
import PacketLayout.Proofs.MinimumSize
import PacketLayout.Proofs.Tiling
import PacketLayout.Proofs.Contiguity
import PacketLayout.Proofs.Frame
import PacketLayout.Proofs.Store
import PacketLayout.Proofs.Nesting
import PacketLayout.Proofs.Policies
import PacketLayout.Proofs.Stretches
import PacketLayout.Proofs.Rules
import PacketLayout.Proofs.Acceptability
import PacketLayout.Access.InPlace
import PacketLayout.Proofs.InPlace
import PacketLayout.Proofs.Faults
import PacketLayout.Proofs.Atomicity
import PacketLayout.Proofs.ReadOnly
import PacketLayout.Proofs.Anchors
import PacketLayout.Proofs.Nominal
import PacketLayout.Proofs.Blindness
import PacketLayout.Proofs.UnitReports
import PacketLayout.Proofs.Surfacing
import PacketLayout.Proofs.Composition
import PacketLayout.Proofs.Reports
import PacketLayout.Proofs.RoundTrip
import PacketLayout.Proofs.Omission
import PacketLayout.Proofs.Spelling
import PacketLayout.Proofs.Texts
import PacketLayout.Proofs.Warnings
import PacketLayout.Proofs.Serialization
import PacketLayout.Proofs.References
import PacketLayout.Proofs.Provenance
import PacketLayout.Proofs.Prefixes
import PacketLayout.Proofs.Narration
import PacketLayout.Proofs.Inference
import PacketLayout.Proofs.Headroom
import PacketLayout.Proofs.BitFields
import PacketLayout.Proofs.Formation
import PacketLayout.Proofs.Predictions
import PacketLayout.Proofs.Totals
import PacketLayout.Proofs.Remainder
import PacketLayout.Proofs.NumberWrites
import PacketLayout.Proofs.Signs
import PacketLayout.Proofs.Variants
import PacketLayout.Proofs.Positional
import PacketLayout.Proofs.Decoding
import PacketLayout.Proofs.SharedBytes
import PacketLayout.Proofs.Commutation
import PacketLayout.Proofs.Copies
import PacketLayout.Proofs.Evaluation
import PacketLayout.Proofs.Lenses
import PacketLayout.Proofs.WordAccess
