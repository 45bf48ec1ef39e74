import TagSchema.Command
import TagSchema.Conversion
import TagSchema.Datum
import TagSchema.Disk
import TagSchema.Disk.Corpus
import TagSchema.Disk.Search
import TagSchema.Fault
import TagSchema.FileTree
import TagSchema.Grammar.Basic
import TagSchema.Grammar.Standard
import TagSchema.Invocation
import TagSchema.Json
import TagSchema.Json.Document
import TagSchema.Keyword
import TagSchema.Literal
import TagSchema.Main
import TagSchema.Namespace
import TagSchema.Node
import TagSchema.Node.Closing
import TagSchema.Node.Mapping
import TagSchema.Node.References
import TagSchema.Reading
import TagSchema.Schema.Basic
import TagSchema.Schema.Declaration
import TagSchema.SchemaName
import TagSchema.Scope
import TagSchema.Settings
import TagSchema.Signature
import TagSchema.Symbols
import TagSchema.Symbols.Outline
import TagSchema.Symbols.Table
import TagSchema.Text.CaseTable
import TagSchema.Text.HiddenTable
import TagSchema.Text.Lowercase
import TagSchema.Text.Shape
import TagSchema.Text.Words
import TagSchema.Vocabulary
import TagSchema.Proofs.Conformity
import TagSchema.Proofs.Growth
import TagSchema.Proofs.Adoption
import TagSchema.Proofs.Completion
import TagSchema.Proofs.Quiet
import TagSchema.Proofs.Settling
import TagSchema.Proofs.Listing
import TagSchema.Proofs.Scopes
import TagSchema.Proofs.Invariant
import TagSchema.Proofs.Declared
import TagSchema.Proofs.Finalizing
import TagSchema.Proofs.Finishing
import TagSchema.Proofs.Typing
import TagSchema.Proofs.Acceptance
import TagSchema.Proofs.Resolution
import TagSchema.Proofs.Independence
import TagSchema.Proofs.Outline
import TagSchema.Proofs.FileOrder
import TagSchema.Proofs.Registration
import TagSchema.Proofs.Framing
import TagSchema.Proofs.Rendering
import TagSchema.Proofs.Draft
import TagSchema.Proofs.Dealing
import TagSchema.Proofs.Numbering
import TagSchema.Proofs.Filling
import TagSchema.Proofs.Wholeness
import TagSchema.Proofs.Spelling
import TagSchema.Proofs.Fitting
import TagSchema.Proofs.Rebuilding
import TagSchema.Proofs.EndMarks
import TagSchema.Proofs.Relocation
import TagSchema.Proofs.Naturality
import TagSchema.Proofs.Moving
import TagSchema.Proofs.Lines
import TagSchema.Proofs.Layout
import TagSchema.Proofs.Tracing
import TagSchema.Proofs.SourceOrder
import TagSchema.Proofs.FaultPlaces
import TagSchema.Proofs.Calls
import TagSchema.Proofs.Uniqueness
import TagSchema.Proofs.Concordance
import TagSchema.Proofs.Containment
import TagSchema.Proofs.Inheritance
import TagSchema.Proofs.Resuming
import TagSchema.Proofs.Reports
import TagSchema.Proofs.Slots
import TagSchema.Proofs.Slicing
import TagSchema.Proofs.Likeness
import TagSchema.Proofs.Shorthand
import TagSchema.Proofs.Refusals
import TagSchema.Proofs.Folding
import TagSchema.Proofs.Effects
import TagSchema.Proofs.Counting
import TagSchema.Proofs.Declaring
import TagSchema.Proofs.Paths
import TagSchema.Proofs.Searching
import TagSchema.Proofs.Whereabouts
import TagSchema.Proofs.Respelling
import TagSchema.Proofs.Prescribing
import TagSchema.Proofs.Conversions
import TagSchema.Proofs.Handing
