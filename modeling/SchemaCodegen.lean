import SchemaCodegen.Compose.AllOf
import SchemaCodegen.Compose.Flatten
import SchemaCodegen.Compose.Merge
import SchemaCodegen.Compose.Simplify
import SchemaCodegen.Config.Engine
import SchemaCodegen.Config.Environment
import SchemaCodegen.Config.Files
import SchemaCodegen.Config.Layers
import SchemaCodegen.Cycle.Component
import SchemaCodegen.Cycle.DepthFirst
import SchemaCodegen.Cycle.Dictionary
import SchemaCodegen.Cycle.Path
import SchemaCodegen.Data.Anchors
import SchemaCodegen.Data.Graph
import SchemaCodegen.Data.Shown
import SchemaCodegen.Data.Value
import SchemaCodegen.Document.Contents
import SchemaCodegen.Document.Text
import SchemaCodegen.Documentation.Label
import SchemaCodegen.Documentation.Markdown
import SchemaCodegen.Documentation.Record
import SchemaCodegen.Failure
import SchemaCodegen.Form.Fields
import SchemaCodegen.Form.Hints
import SchemaCodegen.Form.InputKind
import SchemaCodegen.Identifier
import SchemaCodegen.Json.Reader
import SchemaCodegen.Json.Writer
import SchemaCodegen.Mock.Sample
import SchemaCodegen.Mock.Twister
import SchemaCodegen.Number.Binary64
import SchemaCodegen.Number.Numeric
import SchemaCodegen.Number.Shortest
import SchemaCodegen.Options.Basic
import SchemaCodegen.Options.Checked
import SchemaCodegen.Output.Manager
import SchemaCodegen.Output.Markup
import SchemaCodegen.Output.Report
import SchemaCodegen.Output.Wrap
import SchemaCodegen.Proofs.Compose.Collapsed
import SchemaCodegen.Proofs.Compose.Flattening
import SchemaCodegen.Proofs.Compose.Leaves
import SchemaCodegen.Proofs.Compose.Members
import SchemaCodegen.Proofs.Compose.Represented
import SchemaCodegen.Proofs.Compose.Required
import SchemaCodegen.Proofs.Compose.Simplified
import SchemaCodegen.Proofs.Config.Keyed
import SchemaCodegen.Proofs.Config.Precedence
import SchemaCodegen.Proofs.Cycle.Agreement
import SchemaCodegen.Proofs.Cycle.Circular
import SchemaCodegen.Proofs.Cycle.Emission
import SchemaCodegen.Proofs.Cycle.Marked
import SchemaCodegen.Proofs.Cycle.Opened
import SchemaCodegen.Proofs.Cycle.Walk
import SchemaCodegen.Proofs.Data.Copy
import SchemaCodegen.Proofs.Data.Entries
import SchemaCodegen.Proofs.Data.Keys
import SchemaCodegen.Proofs.Data.Tree
import SchemaCodegen.Proofs.Documentation.Table
import SchemaCodegen.Proofs.Documentation.TypeLabel
import SchemaCodegen.Proofs.Form.Arranged
import SchemaCodegen.Proofs.Identifier.Declared
import SchemaCodegen.Proofs.Identifier.Denoted
import SchemaCodegen.Proofs.Identifier.Label
import SchemaCodegen.Proofs.Identifier.Letters
import SchemaCodegen.Proofs.Mock.Depth
import SchemaCodegen.Proofs.Mock.Ending
import SchemaCodegen.Proofs.Mock.Lengths
import SchemaCodegen.Proofs.Mock.Numbers
import SchemaCodegen.Proofs.Mock.Settling
import SchemaCodegen.Proofs.Mock.Yielding
import SchemaCodegen.Proofs.Number.Limits
import SchemaCodegen.Proofs.Reference.Chains
import SchemaCodegen.Proofs.Reference.Dereference
import SchemaCodegen.Proofs.Reference.Inlined
import SchemaCodegen.Proofs.Reference.Names
import SchemaCodegen.Proofs.Reference.Occurrences
import SchemaCodegen.Proofs.Reference.RoundTrip
import SchemaCodegen.Proofs.Reference.Stumbling
import SchemaCodegen.Proofs.Reference.Targets
import SchemaCodegen.Proofs.Reference.Walks
import SchemaCodegen.Proofs.Schema.Classify
import SchemaCodegen.Proofs.Schema.OpenObjects
import SchemaCodegen.Proofs.Schema.Positions
import SchemaCodegen.Proofs.Schema.RequiredAlike
import SchemaCodegen.Proofs.Schema.Sharing
import SchemaCodegen.Proofs.Statistics.Coverage
import SchemaCodegen.Proofs.Statistics.Dependents
import SchemaCodegen.Proofs.Text.Cut
import SchemaCodegen.Proofs.TypeScript.Closed
import SchemaCodegen.Proofs.TypeScript.CommentEnd
import SchemaCodegen.Proofs.TypeScript.Comments
import SchemaCodegen.Proofs.TypeScript.Grouping
import SchemaCodegen.Proofs.TypeScript.Literals
import SchemaCodegen.Proofs.TypeScript.Misreading
import SchemaCodegen.Proofs.TypeScript.Neutral
import SchemaCodegen.Proofs.TypeScript.Pieces
import SchemaCodegen.Proofs.TypeScript.Strict
import SchemaCodegen.Proofs.Zod.Alternatives
import SchemaCodegen.Proofs.Zod.BigIntegers
import SchemaCodegen.Proofs.Zod.Module
import SchemaCodegen.Proofs.Zod.Uses
import SchemaCodegen.Proofs.Zod.Written
import SchemaCodegen.Reference.Inline
import SchemaCodegen.Reference.Occurrences
import SchemaCodegen.Reference.Place
import SchemaCodegen.Reference.Pointer
import SchemaCodegen.Reference.Resolve
import SchemaCodegen.Schema.Classify
import SchemaCodegen.Schema.Node
import SchemaCodegen.Statistics.Measure
import SchemaCodegen.Text.Blank
import SchemaCodegen.Text.Digit
import SchemaCodegen.Text.Printable
import SchemaCodegen.Text.Quoted
import SchemaCodegen.Text.Search
import SchemaCodegen.Text.Surrogate
import SchemaCodegen.Traced
import SchemaCodegen.TypeScript.Declaration
import SchemaCodegen.TypeScript.Expression
import SchemaCodegen.TypeScript.Payload
import SchemaCodegen.TypeScript.SchemaType
import SchemaCodegen.Yaml.Cursor
import SchemaCodegen.Yaml.Data
import SchemaCodegen.Yaml.Layout
import SchemaCodegen.Yaml.Node
import SchemaCodegen.Yaml.Scalar
import SchemaCodegen.Yaml.Tag
import SchemaCodegen.Yaml.Text
import SchemaCodegen.Yaml.Timestamp
import SchemaCodegen.Yaml.Token
import SchemaCodegen.Zod.Expression
import SchemaCodegen.Zod.Module
import SchemaCodegen.Zod.SchemaValidator
