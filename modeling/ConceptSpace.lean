import ConceptSpace.Command.Files
import ConceptSpace.Command.Line
import ConceptSpace.Command.Session
import ConceptSpace.Concept.Basic
import ConceptSpace.Error
import ConceptSpace.Facts.Base
import ConceptSpace.Facts.Change
import ConceptSpace.Facts.Join
import ConceptSpace.Pattern.Bindings
import ConceptSpace.Pattern.Mask
import ConceptSpace.Pattern.Unify
import ConceptSpace.Sequence.Batches
import ConceptSpace.Sequence.Distinct
import ConceptSpace.Sequence.Sorted
import ConceptSpace.Source.Denotation
import ConceptSpace.Source.Error
import ConceptSpace.Source.Outline
import ConceptSpace.Source.Position
import ConceptSpace.Source.Reading
import ConceptSpace.Source.SelfReference
import ConceptSpace.Source.Token
import ConceptSpace.Space.Basic
import ConceptSpace.Space.Location
import ConceptSpace.Space.Settings
import ConceptSpace.Space.SettingsFile
import ConceptSpace.Storage.Error
import ConceptSpace.Storage.Key
import ConceptSpace.Storage.Snapshot
import ConceptSpace.Storage.Store
import ConceptSpace.Storage.Table
import ConceptSpace.Storage.Transaction
import ConceptSpace.Storage.Value
import ConceptSpace.Text.Json
import ConceptSpace.Text.Numeral
import ConceptSpace.Text.Percent
import ConceptSpace.Text.Quoted
import ConceptSpace.Text.Whitespace
import ConceptSpace.Toml.Document
import ConceptSpace.Toml.Scalar
import ConceptSpace.Trigger.Basic
import ConceptSpace.Trigger.Delivery
import ConceptSpace.Trigger.Round
import ConceptSpace.Proofs.Concept.Clean
import ConceptSpace.Proofs.Source.Words
import ConceptSpace.Proofs.Source.TokenRules
import ConceptSpace.Proofs.Source.Blocks
import ConceptSpace.Proofs.Source.Readings
import ConceptSpace.Proofs.Source.Keys
import ConceptSpace.Proofs.Source.Origin
import ConceptSpace.Proofs.Source.Nesting
import ConceptSpace.Proofs.Source.Alternatives
import ConceptSpace.Proofs.Sequence.Traversal
import ConceptSpace.Proofs.Sequence.Choices
import ConceptSpace.Proofs.Sequence.Insertions
import ConceptSpace.Proofs.Sequence.Distinct
import ConceptSpace.Proofs.Text.Percent
import ConceptSpace.Proofs.Text.ByteOrder
import ConceptSpace.Proofs.Storage.Encoding
import ConceptSpace.Proofs.Source.Tokens
import ConceptSpace.Proofs.Source.SingleWords
import ConceptSpace.Proofs.Storage.Families
import ConceptSpace.Proofs.Storage.Names
import ConceptSpace.Proofs.Storage.Listing
import ConceptSpace.Proofs.Storage.Bulk
import ConceptSpace.Proofs.Storage.Backends
import ConceptSpace.Proofs.Concept.Words
import ConceptSpace.Proofs.Concept.SelfReference
import ConceptSpace.Proofs.Pattern.Instance
import ConceptSpace.Proofs.Pattern.Unify
import ConceptSpace.Proofs.Pattern.Numbering
import ConceptSpace.Proofs.Pattern.Mask
import ConceptSpace.Proofs.Pattern.Canonical
import ConceptSpace.Proofs.Pattern.Covering
import ConceptSpace.Proofs.Pattern.Generalization
import ConceptSpace.Proofs.Pattern.Reading
import ConceptSpace.Proofs.Pattern.Settled
import ConceptSpace.Proofs.Pattern.Determinate
import ConceptSpace.Proofs.Pattern.PatternMask
import ConceptSpace.Proofs.Pattern.Places
import ConceptSpace.Proofs.Pattern.VariableNames
import ConceptSpace.Proofs.Pattern.Substitution
import ConceptSpace.Proofs.Pattern.RoundTrip
import ConceptSpace.Proofs.Pattern.Fillings
import ConceptSpace.Proofs.Source.Interpolation
import ConceptSpace.Proofs.Concept.Inside
import ConceptSpace.Proofs.Source.Coverage
import ConceptSpace.Proofs.Source.Distribution
import ConceptSpace.Proofs.Source.Lines
import ConceptSpace.Proofs.Source.Rereading
import ConceptSpace.Proofs.Facts.Index
import ConceptSpace.Proofs.Facts.Adding
import ConceptSpace.Proofs.Facts.Removing
import ConceptSpace.Proofs.Facts.Counting
import ConceptSpace.Proofs.Facts.Atomicity
import ConceptSpace.Proofs.Facts.History
import ConceptSpace.Proofs.Facts.Paging
import ConceptSpace.Proofs.Facts.Batching
import ConceptSpace.Proofs.Facts.Cascade
import ConceptSpace.Proofs.Facts.Solutions
import ConceptSpace.Proofs.Facts.Pivot
import ConceptSpace.Proofs.Facts.Search
import ConceptSpace.Proofs.Facts.CleanTables
import ConceptSpace.Proofs.Facts.Join
import ConceptSpace.Proofs.Facts.Following
import ConceptSpace.Proofs.Facts.Detours
import ConceptSpace.Proofs.Facts.Soundness
import ConceptSpace.Proofs.Facts.Anchored
import ConceptSpace.Proofs.Facts.Completeness
import ConceptSpace.Proofs.Facts.Pruning
import ConceptSpace.Proofs.Facts.SingleRule
import ConceptSpace.Proofs.Facts.GroundQueries
import ConceptSpace.Proofs.Trigger.Grouping
import ConceptSpace.Proofs.Trigger.Components
import ConceptSpace.Proofs.Trigger.Separation
import ConceptSpace.Proofs.Trigger.Stored
import ConceptSpace.Proofs.Trigger.Bound
import ConceptSpace.Proofs.Trigger.Firings
import ConceptSpace.Proofs.Trigger.Outcomes
import ConceptSpace.Proofs.Trigger.Attempts
import ConceptSpace.Proofs.Trigger.Rounds
import ConceptSpace.Proofs.Trigger.Keeping
import ConceptSpace.Proofs.Trigger.Failures
import ConceptSpace.Proofs.Trigger.Following
import ConceptSpace.Proofs.Trigger.Collision
import ConceptSpace.Proofs.Trigger.Notifying
import ConceptSpace.Proofs.Trigger.Definitions
import ConceptSpace.Proofs.Trigger.Growth
import ConceptSpace.Proofs.Trigger.Termination
import ConceptSpace.Proofs.Space.Triggers
import ConceptSpace.Proofs.Space.Balance
import ConceptSpace.Proofs.Space.Chaining
import ConceptSpace.Proofs.Space.Texts
import ConceptSpace.Main
