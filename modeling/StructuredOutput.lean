import StructuredOutput.Backend.Projection
import StructuredOutput.Codec.Encode
import StructuredOutput.Constraint.Checked
import StructuredOutput.Content.Extract
import StructuredOutput.Content.OfValue
import StructuredOutput.Log.Report
import StructuredOutput.Log.Setup
import StructuredOutput.Proofs.Backend.Guides
import StructuredOutput.Proofs.Backend.TextRules
import StructuredOutput.Proofs.Backend.Unprojectable
import StructuredOutput.Proofs.Backend.Visits
import StructuredOutput.Proofs.Codec.Canonical
import StructuredOutput.Proofs.Codec.Discriminator
import StructuredOutput.Proofs.Codec.FirstFault
import StructuredOutput.Proofs.Codec.Integers
import StructuredOutput.Proofs.Codec.RoundTrip
import StructuredOutput.Proofs.Codec.Untyped
import StructuredOutput.Proofs.Content.FencedPayload
import StructuredOutput.Proofs.Content.Payload
import StructuredOutput.Proofs.Content.Serialize
import StructuredOutput.Proofs.Document.Accepted
import StructuredOutput.Proofs.Document.Decodes
import StructuredOutput.Proofs.Document.Dialects
import StructuredOutput.Proofs.Document.Expansion
import StructuredOutput.Proofs.Document.Pointers
import StructuredOutput.Proofs.Document.Presence
import StructuredOutput.Proofs.Document.References
import StructuredOutput.Proofs.Document.Sharing
import StructuredOutput.Proofs.Grammar.Language
import StructuredOutput.Proofs.Grammar.WellFormed
import StructuredOutput.Proofs.Schema.Bodies
import StructuredOutput.Proofs.Schema.Cache
import StructuredOutput.Proofs.Schema.Defined
import StructuredOutput.Proofs.Schema.DistinctNames
import StructuredOutput.Proofs.Schema.NumericBounds
import StructuredOutput.Proofs.Schema.Refinement
import StructuredOutput.Proofs.Shape.Aliases
import StructuredOutput.Proofs.Stream.Completion
import StructuredOutput.Proofs.Stream.Convergence
import StructuredOutput.Proofs.Stream.Escapes
import StructuredOutput.Proofs.Stream.Idempotent
import StructuredOutput.Proofs.Stream.Image
import StructuredOutput.Proofs.Stream.Memory
import StructuredOutput.Proofs.Stream.Missing
import StructuredOutput.Proofs.Stream.Settled
import StructuredOutput.Proofs.Stream.Stages
import StructuredOutput.Proofs.Stream.Truncation
import StructuredOutput.Schema.Derive
import StructuredOutput.Stream.Reconstructor
