import SemanticQuery.Call
import SemanticQuery.Catalog.Basic
import SemanticQuery.Catalog.Builder
import SemanticQuery.Catalog.DateParts
import SemanticQuery.Catalog.Suggestion
import SemanticQuery.CompiledSelect
import SemanticQuery.Concept.Basic
import SemanticQuery.Concept.Binding
import SemanticQuery.Concept.Declare
import SemanticQuery.Concept.Encoding
import SemanticQuery.Concept.Fold
import SemanticQuery.Concept.Lineage
import SemanticQuery.Concept.Namespace
import SemanticQuery.Concept.Reads
import SemanticQuery.Condition
import SemanticQuery.Count
import SemanticQuery.Cte.Basic
import SemanticQuery.Cte.Lower
import SemanticQuery.Datasource
import SemanticQuery.Error
import SemanticQuery.Fingerprint
import SemanticQuery.Fingerprint.IntTable
import SemanticQuery.Fingerprint.Sha256
import SemanticQuery.Grain
import SemanticQuery.Graph.Basic
import SemanticQuery.Graph.Path
import SemanticQuery.Names
import SemanticQuery.Operator
import SemanticQuery.Plan.Aligned
import SemanticQuery.Plan.Derived
import SemanticQuery.Plan.History
import SemanticQuery.Plan.Join
import SemanticQuery.Plan.JoinPath
import SemanticQuery.Plan.Leaf
import SemanticQuery.Plan.Node
import SemanticQuery.Plan.Planner
import SemanticQuery.Plan.Resolve
import SemanticQuery.Plan.Search
import SemanticQuery.Proofs.Assembly
import SemanticQuery.Proofs.Balance
import SemanticQuery.Proofs.Binding
import SemanticQuery.Proofs.BindingSteps
import SemanticQuery.Proofs.BoundValues
import SemanticQuery.Proofs.Calls
import SemanticQuery.Proofs.ColumnGrains
import SemanticQuery.Proofs.Compilation
import SemanticQuery.Proofs.Condensing
import SemanticQuery.Proofs.Coverage
import SemanticQuery.Proofs.CteNames
import SemanticQuery.Proofs.DirectTable
import SemanticQuery.Proofs.Edges
import SemanticQuery.Proofs.Encodings
import SemanticQuery.Proofs.Extensions
import SemanticQuery.Proofs.Fingerprints
import SemanticQuery.Proofs.Fold
import SemanticQuery.Proofs.ForwardReferences
import SemanticQuery.Proofs.GrainSums
import SemanticQuery.Proofs.Inquiries
import SemanticQuery.Proofs.JoinOrder
import SemanticQuery.Proofs.JoinPaths
import SemanticQuery.Proofs.JsonTexts
import SemanticQuery.Proofs.Keys
import SemanticQuery.Proofs.Known
import SemanticQuery.Proofs.Leaves
import SemanticQuery.Proofs.LoweredSources
import SemanticQuery.Proofs.Lowering
import SemanticQuery.Proofs.MergedJoins
import SemanticQuery.Proofs.MergedSources
import SemanticQuery.Proofs.Mergers
import SemanticQuery.Proofs.Merging
import SemanticQuery.Proofs.Misses
import SemanticQuery.Proofs.MovedGrains
import SemanticQuery.Proofs.NameMaps
import SemanticQuery.Proofs.Namespaces
import SemanticQuery.Proofs.NearestNames
import SemanticQuery.Proofs.Nesting
import SemanticQuery.Proofs.NewEntries
import SemanticQuery.Proofs.OpenReferences
import SemanticQuery.Proofs.Outcome
import SemanticQuery.Proofs.PartialFlags
import SemanticQuery.Proofs.Placeholders
import SemanticQuery.Proofs.Plans
import SemanticQuery.Proofs.Program
import SemanticQuery.Proofs.Provision
import SemanticQuery.Proofs.Rebuilding
import SemanticQuery.Proofs.ReferenceChains
import SemanticQuery.Proofs.RequestKeys
import SemanticQuery.Proofs.Resolution
import SemanticQuery.Proofs.Run
import SemanticQuery.Proofs.Scope
import SemanticQuery.Proofs.ShortestPaths
import SemanticQuery.Proofs.Soundness
import SemanticQuery.Proofs.SpanningOrder
import SemanticQuery.Proofs.Stacks
import SemanticQuery.Proofs.Stages
import SemanticQuery.Proofs.Unique
import SemanticQuery.Proofs.Units
import SemanticQuery.Proofs.Variants
import SemanticQuery.Proofs.WellFormed
import SemanticQuery.Proofs.WellTyped
import SemanticQuery.Proofs.WrittenAlike
import SemanticQuery.Query.Basic
import SemanticQuery.Query.Encoding
import SemanticQuery.Query.Merge
import SemanticQuery.Select
import SemanticQuery.Settings
import SemanticQuery.Sort
import SemanticQuery.Text.Decimal
import SemanticQuery.Text.Invisible
import SemanticQuery.Text.Json
import SemanticQuery.Text.JsonReader
import SemanticQuery.Text.Quoted
import SemanticQuery.Toml.Document
import SemanticQuery.Toml.Scalar
import SemanticQuery.Toml.Table
import SemanticQuery.Toml.Text
import SemanticQuery.Vocabulary
import SemanticQuery.Proofs.CanonicalGrains
import SemanticQuery.Proofs.RepeatedMoves
import SemanticQuery.Proofs.Connectivity
import SemanticQuery.Proofs.Combinations
