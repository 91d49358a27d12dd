import ShaderPress.Disk
import ShaderPress.Main
import ShaderPress.Proofs.Ident.Generator
import ShaderPress.Proofs.Rename.Allocation
import ShaderPress.Proofs.Rename.Capture
import ShaderPress.Proofs.Token.Lexing
import ShaderPress.Proofs.Token.Depth
import ShaderPress.Proofs.Token.Rules
import ShaderPress.Proofs.Token.Lexed
import ShaderPress.Proofs.Token.Lossless
import ShaderPress.Proofs.Catalog.Names
import ShaderPress.Proofs.Catalog.Counts
import ShaderPress.Proofs.Shader.Layout
import ShaderPress.Proofs.Shader.Rounds
import ShaderPress.Proofs.Shader.Spelling
import ShaderPress.Proofs.Batch.Finish
import ShaderPress.Proofs.Shader.LineState
import ShaderPress.Proofs.Shader.OwnLine
import ShaderPress.Proofs.Shader.StrippedLayout
import ShaderPress.Proofs.Shader.SingleLine
import ShaderPress.Proofs.Batch.OwnLines
import ShaderPress.Proofs.Batch.SingleLines
import ShaderPress.Proofs.Catalog.References
import ShaderPress.Proofs.Token.Definitions
import ShaderPress.Proofs.Token.References
import ShaderPress.Proofs.Token.Streams
import ShaderPress.Proofs.Shader.Fixpoint
import ShaderPress.Proofs.Shader.Dropped
import ShaderPress.Proofs.Batch.Stripping
import ShaderPress.Proofs.Token.Shapes
import ShaderPress.Proofs.Token.Plain
import ShaderPress.Proofs.Token.Reading
import ShaderPress.Proofs.Ident.Words
import ShaderPress.Proofs.Token.Lexemes
import ShaderPress.Proofs.Rename.Words
import ShaderPress.Proofs.Shader.Relexing
import ShaderPress.Proofs.Shader.Spacing
import ShaderPress.Proofs.Batch.Spacing
import ShaderPress.Proofs.Token.Sites
import ShaderPress.Proofs.Token.Accessors
import ShaderPress.Proofs.Catalog.Recounting
import ShaderPress.Proofs.Ident.Order
import ShaderPress.Proofs.Catalog.Exports
import ShaderPress.Proofs.Shader.Passes
import ShaderPress.Proofs.Shader.Outline
import ShaderPress.Proofs.Shader.Text
import ShaderPress.Proofs.Catalog.Renaming
import ShaderPress.Proofs.Rename.Fixpoint
import ShaderPress.Proofs.Token.Names
import ShaderPress.Proofs.Shader.Rereading
import ShaderPress.Proofs.Token.Boundaries
import ShaderPress.Proofs.Shader.Alignment
import ShaderPress.Proofs.Shader.Hashes
import ShaderPress.Proofs.Shader.Readback
import ShaderPress.Proofs.Batch.Single
import ShaderPress.Proofs.Shader.Mentions
import ShaderPress.Proofs.Shader.Rendered
import ShaderPress.Proofs.Batch.Contents
import ShaderPress.Proofs.Batch.Again
import ShaderPress.Proofs.Batch.RoundTrip
import ShaderPress.Proofs.Batch.Exports
import ShaderPress.Proofs.Batch.Switches
import ShaderPress.Proofs.Shader.Significant
import ShaderPress.Proofs.Batch.Significant
import ShaderPress.Proofs.Token.Strictness
import ShaderPress.Proofs.Token.LineEnds
import ShaderPress.Proofs.Token.Relining
import ShaderPress.Proofs.Token.KeepsLines
import ShaderPress.Proofs.Batch.LineEnds
import ShaderPress.Proofs.Shader.DirectiveName
import ShaderPress.Proofs.Batch.DirectiveNames
import ShaderPress.Proofs.Feature.Members
import ShaderPress.Proofs.Feature.Resolved
import ShaderPress.Proofs.Feature.Emission
import ShaderPress.Proofs.Feature.Plan
import ShaderPress.Proofs.Feature.Checks
import ShaderPress.Proofs.Feature.Coverage
import ShaderPress.Proofs.Feature.VertexPrograms
import ShaderPress.Proofs.Feature.Roles
import ShaderPress.Proofs.Feature.Namespaces
import ShaderPress.Proofs.Feature.Macros
import ShaderPress.Proofs.Storage.Directory
import ShaderPress.Proofs.Storage.Job
import ShaderPress.Proofs.Shader.FileNames
import ShaderPress.Proofs.Batch.Written
import ShaderPress.Proofs.Shader.RawConstant
import ShaderPress.Proofs.Batch.Embedded
import ShaderPress.Proofs.Token.WholeLines
import ShaderPress.Proofs.Shader.Readable
import ShaderPress.Proofs.Batch.Readable
import ShaderPress.Proofs.Ident.FirstFree
import ShaderPress.Proofs.Rename.Greedy
import ShaderPress.Proofs.Token.Stretches
import ShaderPress.Proofs.Token.LineNumbers
import ShaderPress.Proofs.Token.Languages
import ShaderPress.Proofs.Token.Longest
import ShaderPress.Proofs.Token.Munch
import ShaderPress.Proofs.Feature.WellFormed
import ShaderPress.Proofs.Feature.Reordering
import ShaderPress.Proofs.Shader.Termination
import ShaderPress.Proofs.Batch.Reordering
import ShaderPress.Proofs.Catalog.Updates
import ShaderPress.Proofs.Catalog.Priority
import ShaderPress.Proofs.Rename.Again
import ShaderPress.Proofs.Catalog.Hashed
import ShaderPress.Proofs.Catalog.HashOrder
import ShaderPress.Proofs.Ident.Numerals
import ShaderPress.Proofs.Feature.Walk
