import TreeQuery.Main
import TreeQuery.Proofs.Grammar.Basic
import TreeQuery.Proofs.Grammar.Reading
import TreeQuery.Proofs.Grammar.Soundness
import TreeQuery.Proofs.Grammar.Unambiguity
import TreeQuery.Proofs.Grammar.Completeness
import TreeQuery.Proofs.Grammar.Parse
import TreeQuery.Proofs.Evaluation.Settled
import TreeQuery.Proofs.Run.InTurn
import TreeQuery.Proofs.Token.Spelling
import TreeQuery.Proofs.Grammar.Joining
import TreeQuery.Proofs.Query.Sequence
import TreeQuery.Proofs.Evaluation.Content
import TreeQuery.Proofs.Evaluation.Rules
import TreeQuery.Proofs.Evaluation.Providing
import TreeQuery.Proofs.Evaluation.Delivery
import TreeQuery.Proofs.Evaluation.Navigation
import TreeQuery.Proofs.Decimal.Binary64
import TreeQuery.Proofs.Decimal.Rounding
import TreeQuery.Proofs.Decimal.ReadBack
import TreeQuery.Proofs.Decimal.Numeral
import TreeQuery.Proofs.Filter.Pieces
import TreeQuery.Proofs.Filter.Spelled
import TreeQuery.Proofs.Filter.Rendering
import TreeQuery.Proofs.Filter.RoundTrip
import TreeQuery.Proofs.Run.Tracks
import TreeQuery.Proofs.Value.Linked
import TreeQuery.Proofs.Query.Transparency
import TreeQuery.Proofs.Host.Region
import TreeQuery.Proofs.Evaluation.Confined
import TreeQuery.Proofs.Evaluation.Stages
import TreeQuery.Proofs.Query.Pointwise
import TreeQuery.Proofs.Query.Demand
import TreeQuery.Proofs.Token.Outlook
import TreeQuery.Proofs.Grammar.Continuation
import TreeQuery.Proofs.Grammar.Examination
import TreeQuery.Proofs.Grammar.Viability
import TreeQuery.Proofs.Grammar.Locality
import TreeQuery.Proofs.Grammar.Leftmost
import TreeQuery.Proofs.Value.JsonShaped
import TreeQuery.Proofs.Query.Closed
import TreeQuery.Proofs.Query.Composition
import TreeQuery.Proofs.Host.Draining
import TreeQuery.Proofs.Evaluation.Draining
import TreeQuery.Proofs.Evaluation.Views
import TreeQuery.Proofs.Evaluation.Interleaving
import TreeQuery.Proofs.Token.Lossless
import TreeQuery.Proofs.Evaluation.Course
import TreeQuery.Proofs.Evaluation.FailFast
import TreeQuery.Proofs.Query.FailFast
import TreeQuery.Proofs.Host.Family
import TreeQuery.Proofs.Evaluation.Reentrance
import TreeQuery.Proofs.Decimal.Nearest
import TreeQuery.Proofs.Decimal.Finite
import TreeQuery.Proofs.Json.Ordered
import TreeQuery.Proofs.Json.Proper
import TreeQuery.Proofs.Value.Plain
import TreeQuery.Proofs.Value.Bridge
import TreeQuery.Proofs.Decimal.Scaled
import TreeQuery.Proofs.Arithmetic.Laws
import TreeQuery.Proofs.Value.Fields
import TreeQuery.Proofs.Evaluation.Bearing
import TreeQuery.Proofs.Evaluation.Orders
import TreeQuery.Proofs.Decimal.Closeness
import TreeQuery.Proofs.Decimal.Roundoff
import TreeQuery.Proofs.Decimal.Conversion
import TreeQuery.Proofs.Decimal.Rescaling
import TreeQuery.Proofs.Arithmetic.Accuracy
import TreeQuery.Proofs.Filter.Nesting
import TreeQuery.Proofs.Filter.Reuse
import TreeQuery.Proofs.Token.Places
import TreeQuery.Proofs.Token.Respacing
import TreeQuery.Proofs.Query.Layout
import TreeQuery.Proofs.Value.Records
import TreeQuery.Proofs.Query.Portions
import TreeQuery.Proofs.Query.Positions
import TreeQuery.Proofs.Filter.Normal
import TreeQuery.Proofs.Filter.Image
import TreeQuery.Proofs.Query.Paths
import TreeQuery.Proofs.Value.Equality
import TreeQuery.Proofs.Filter.Takings
