import ConfigTree.Command.Basic
import ConfigTree.Command.Line
import ConfigTree.Document.Reading
import ConfigTree.Document.Writing
import ConfigTree.Entries
import ConfigTree.Experiment
import ConfigTree.Expression.Basic
import ConfigTree.Expression.Evaluation
import ConfigTree.Expression.Number
import ConfigTree.Expression.Token.Lexer
import ConfigTree.Floating.Basic
import ConfigTree.Floating.Decimal
import ConfigTree.IntegerRange
import ConfigTree.Main
import ConfigTree.Parameters.Basic
import ConfigTree.Parameters.Error
import ConfigTree.Parameters.Session
import ConfigTree.Proofs.Document.Comments
import ConfigTree.Proofs.Document.Layout
import ConfigTree.Proofs.Document.Lines
import ConfigTree.Proofs.Document.Naming
import ConfigTree.Proofs.Document.Reading
import ConfigTree.Proofs.Document.RoundTrip
import ConfigTree.Proofs.Document.Rows
import ConfigTree.Proofs.Document.Scalar
import ConfigTree.Proofs.Document.Stringing
import ConfigTree.Proofs.Entries
import ConfigTree.Proofs.Experiment.Refusals
import ConfigTree.Proofs.Experiment.Reload
import ConfigTree.Proofs.Experiment.RoundTrip
import ConfigTree.Proofs.Expression.Fitting
import ConfigTree.Proofs.Expression.Formula
import ConfigTree.Proofs.Expression.Lexer
import ConfigTree.Proofs.Expression.Literal
import ConfigTree.Proofs.Expression.Precedence
import ConfigTree.Proofs.Expression.Refusal
import ConfigTree.Proofs.Expression.Words
import ConfigTree.Proofs.Floating.Decimal
import ConfigTree.Proofs.Floating.Rounding
import ConfigTree.Proofs.Floating.Shortest
import ConfigTree.Proofs.Outcome
import ConfigTree.Proofs.Parameters.Bracket
import ConfigTree.Proofs.Parameters.Context
import ConfigTree.Proofs.Parameters.History
import ConfigTree.Proofs.Parameters.Independence
import ConfigTree.Proofs.Reference.Braced
import ConfigTree.Proofs.Reference.Cap
import ConfigTree.Proofs.Reference.Cycle
import ConfigTree.Proofs.Reference.Expansion
import ConfigTree.Proofs.Reference.Flattening
import ConfigTree.Proofs.Reference.Growth
import ConfigTree.Proofs.Reference.Idempotence
import ConfigTree.Proofs.Reference.InTurn
import ConfigTree.Proofs.Reference.KeyOrder
import ConfigTree.Proofs.Reference.Loops
import ConfigTree.Proofs.Reference.Pass
import ConfigTree.Proofs.Reference.Progress
import ConfigTree.Proofs.Reference.Replacement
import ConfigTree.Proofs.Reference.Scan
import ConfigTree.Proofs.Reference.Seam
import ConfigTree.Proofs.Reference.Separate
import ConfigTree.Proofs.Reference.Splitting
import ConfigTree.Proofs.Reference.Standstill
import ConfigTree.Proofs.Schema.Agreement
import ConfigTree.Proofs.Schema.Collecting
import ConfigTree.Proofs.Schema.Constructor
import ConfigTree.Proofs.Schema.Document
import ConfigTree.Proofs.Schema.Failure
import ConfigTree.Proofs.Schema.FirstFailure
import ConfigTree.Proofs.Schema.Gathering
import ConfigTree.Proofs.Schema.Help
import ConfigTree.Proofs.Schema.Holding
import ConfigTree.Proofs.Schema.Located
import ConfigTree.Proofs.Schema.Member
import ConfigTree.Proofs.Schema.Placement
import ConfigTree.Proofs.Schema.Recursion
import ConfigTree.Proofs.Schema.Refusals
import ConfigTree.Proofs.Schema.Registration
import ConfigTree.Proofs.Schema.Regular
import ConfigTree.Proofs.Schema.Rereading
import ConfigTree.Proofs.Schema.Rewriting
import ConfigTree.Proofs.Schema.Root
import ConfigTree.Proofs.Schema.Shorthand
import ConfigTree.Proofs.Schema.Typing
import ConfigTree.Proofs.Schema.Undeclared
import ConfigTree.Proofs.Storage.Atomicity
import ConfigTree.Proofs.Storage.Operation
import ConfigTree.Proofs.Storage.PathNames
import ConfigTree.Proofs.Text.Digits
import ConfigTree.Proofs.Text.Lines
import ConfigTree.Proofs.Tree.Addressing
import ConfigTree.Proofs.Tree.Descent
import ConfigTree.Proofs.Tree.FlatName
import ConfigTree.Proofs.Tree.Lens
import ConfigTree.Proofs.Tree.Node
import ConfigTree.Proofs.Tree.Place
import ConfigTree.Proofs.Tree.Reordering
import ConfigTree.Proofs.Tree.Validity
import ConfigTree.Proofs.Yaml.Cursor
import ConfigTree.Proofs.Yaml.Entry
import ConfigTree.Proofs.Yaml.Escape
import ConfigTree.Proofs.Yaml.Folding
import ConfigTree.Proofs.Yaml.Lexer
import ConfigTree.Proofs.Yaml.Node
import ConfigTree.Proofs.Yaml.Plain
import ConfigTree.Proofs.Yaml.Proper
import ConfigTree.Proofs.Yaml.Quoted
import ConfigTree.Proofs.Yaml.Value
import ConfigTree.Proofs.Yaml.Word
import ConfigTree.Proofs.Yaml.Written
import ConfigTree.Reference.Resolve
import ConfigTree.Reference.Scan
import ConfigTree.Schema.Catalog
import ConfigTree.Schema.Conversion
import ConfigTree.Schema.Document
import ConfigTree.Schema.Error
import ConfigTree.Schema.FieldType
import ConfigTree.Schema.Fields
import ConfigTree.Schema.Help
import ConfigTree.Schema.Materialize
import ConfigTree.Schema.Registry
import ConfigTree.Schema.Type
import ConfigTree.Schema.Value
import ConfigTree.Storage.Disk
import ConfigTree.Storage.Error
import ConfigTree.Storage.File
import ConfigTree.Storage.FilePath
import ConfigTree.Storage.Format
import ConfigTree.Template.Basic
import ConfigTree.Template.Parser
import ConfigTree.Template.Rendering
import ConfigTree.Template.Tag
import ConfigTree.Text.Basic
import ConfigTree.Text.Digits
import ConfigTree.Text.Hidden
import ConfigTree.Text.Letter
import ConfigTree.Text.Quoted
import ConfigTree.Tree.Basic
import ConfigTree.Tree.Excerpt
import ConfigTree.Tree.Leaves
import ConfigTree.Tree.Path
import ConfigTree.Tree.Scalar
import ConfigTree.Yaml.Chars
import ConfigTree.Yaml.Cursor
import ConfigTree.Yaml.Error
import ConfigTree.Yaml.Node
import ConfigTree.Yaml.Node.Parser
import ConfigTree.Yaml.Scalar
import ConfigTree.Yaml.Token
import ConfigTree.Yaml.Token.Lexer
import ConfigTree.Yaml.Token.Property
import ConfigTree.Yaml.Token.Scalar
import ConfigTree.Yaml.Value
import ConfigTree.Yaml.Value.Printer
