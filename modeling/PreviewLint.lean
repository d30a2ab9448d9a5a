import PreviewLint.Main
import PreviewLint.Proofs.Roots
import PreviewLint.Proofs.Spreads
import PreviewLint.Proofs.Search
import PreviewLint.Proofs.Memory
import PreviewLint.Proofs.Exactness
import PreviewLint.Proofs.Acceptance
import PreviewLint.Proofs.Mixing
import PreviewLint.Proofs.FirstViolation
import PreviewLint.Proofs.Resemblance
import PreviewLint.Proofs.Peg.Reading
import PreviewLint.Proofs.GraphQL.Lexis
import PreviewLint.Proofs.GraphQL.Brackets
import PreviewLint.Proofs.GraphQL.Beginnings
import PreviewLint.Proofs.Source.Matches
import PreviewLint.Proofs.Source.Halves
import PreviewLint.Proofs.Source.Order
import PreviewLint.Proofs.GraphQL.Strings
import PreviewLint.Proofs.GraphQL.Seam
import PreviewLint.Proofs.GraphQL.Across
import PreviewLint.Proofs.GraphQL.Endings
import PreviewLint.Proofs.GraphQL.Forms
import PreviewLint.Proofs.GraphQL.Context
import PreviewLint.Proofs.GraphQL.Spans
import PreviewLint.Proofs.GraphQL.Boundaries
import PreviewLint.Proofs.Source.Lexemes
import PreviewLint.Proofs.Source.Division
import PreviewLint.Proofs.Source.Joining
import PreviewLint.Proofs.Source.Splitting
import PreviewLint.Proofs.GraphQL.Outside
import PreviewLint.Proofs.Source.Alignment
import PreviewLint.Proofs.Source.Scanning
import PreviewLint.Proofs.Source.Sectioning
import PreviewLint.Proofs.Source.Readable
import PreviewLint.Proofs.Source.Recognition
import PreviewLint.Proofs.Flattening
import PreviewLint.Proofs.Inertness
import PreviewLint.Proofs.Inlining
import PreviewLint.Proofs.Relevance
import PreviewLint.Proofs.Cycles
import PreviewLint.Proofs.Traversal
import PreviewLint.Proofs.Placements
import PreviewLint.Proofs.Source.Places
import PreviewLint.Proofs.Usages
import PreviewLint.Proofs.Fields
import PreviewLint.Proofs.Substitution
import PreviewLint.Proofs.Assembly
import PreviewLint.Proofs.Enumeration
import PreviewLint.Proofs.Chains
import PreviewLint.Proofs.Progress
import PreviewLint.Proofs.Source.Bytes
import PreviewLint.Proofs.Source.ByteScan
import PreviewLint.Proofs.Source.ByteHalves
