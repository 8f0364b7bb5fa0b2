import ScriptLint.Catalog.Command
import ScriptLint.Catalog.Document
import ScriptLint.Catalog.Index
import ScriptLint.Catalog.Json
import ScriptLint.Catalog.Standard
import ScriptLint.Cli.Arguments
import ScriptLint.Cli.FileTree
import ScriptLint.Cli.Run
import ScriptLint.Diagnostic.Basic
import ScriptLint.Diagnostic.Identity
import ScriptLint.Diagnostic.Json
import ScriptLint.Diagnostic.Template
import ScriptLint.Dictionary
import ScriptLint.Json.Basic
import ScriptLint.Json.Comments
import ScriptLint.Json.Printer
import ScriptLint.Json.Reader
import ScriptLint.Json.Record
import ScriptLint.Json.Token
import ScriptLint.Lint
import ScriptLint.Main
import ScriptLint.Proofs.Catalog.Json
import ScriptLint.Proofs.Catalog.Lookup
import ScriptLint.Proofs.Catalog.Mandatory
import ScriptLint.Proofs.Catalog.Reordering
import ScriptLint.Proofs.Catalog.Validity
import ScriptLint.Proofs.Cli.Located
import ScriptLint.Proofs.Diagnostic.Case
import ScriptLint.Proofs.Diagnostic.Json
import ScriptLint.Proofs.Diagnostic.Layout
import ScriptLint.Proofs.Diagnostic.Template
import ScriptLint.Proofs.Json.Decoration
import ScriptLint.Proofs.Json.Positions
import ScriptLint.Proofs.Json.Record
import ScriptLint.Proofs.Json.Token
import ScriptLint.Proofs.Parser.Adjacency
import ScriptLint.Proofs.Parser.Along
import ScriptLint.Proofs.Parser.Assignment
import ScriptLint.Proofs.Parser.Brackets
import ScriptLint.Proofs.Parser.Chronicle
import ScriptLint.Proofs.Parser.Clauses
import ScriptLint.Proofs.Parser.CommandName
import ScriptLint.Proofs.Parser.CommentReports
import ScriptLint.Proofs.Parser.Comments
import ScriptLint.Proofs.Parser.Composition
import ScriptLint.Proofs.Parser.Depth
import ScriptLint.Proofs.Parser.Emptied
import ScriptLint.Proofs.Parser.Enclosure
import ScriptLint.Proofs.Parser.EndOfParameters
import ScriptLint.Proofs.Parser.Extent
import ScriptLint.Proofs.Parser.Faults
import ScriptLint.Proofs.Parser.GroupEnds
import ScriptLint.Proofs.Parser.Intact
import ScriptLint.Proofs.Parser.Json
import ScriptLint.Proofs.Parser.Keys
import ScriptLint.Proofs.Parser.Layout
import ScriptLint.Proofs.Parser.LineEnd
import ScriptLint.Proofs.Parser.LoneOperator
import ScriptLint.Proofs.Parser.Mirror
import ScriptLint.Proofs.Parser.Mirror.Command
import ScriptLint.Proofs.Parser.Mirror.Group
import ScriptLint.Proofs.Parser.Mirror.List
import ScriptLint.Proofs.Parser.Mirror.Moved
import ScriptLint.Proofs.Parser.Mirror.Pipeline
import ScriptLint.Proofs.Parser.Mirror.Rules
import ScriptLint.Proofs.Parser.Mirror.Statement
import ScriptLint.Proofs.Parser.Movement
import ScriptLint.Proofs.Parser.Nesting
import ScriptLint.Proofs.Parser.NormalForm
import ScriptLint.Proofs.Parser.OneStage
import ScriptLint.Proofs.Parser.Operands
import ScriptLint.Proofs.Parser.Operators
import ScriptLint.Proofs.Parser.Order
import ScriptLint.Proofs.Parser.Origin
import ScriptLint.Proofs.Parser.Progress
import ScriptLint.Proofs.Parser.Reading
import ScriptLint.Proofs.Parser.Reading.Basic
import ScriptLint.Proofs.Parser.Reading.Command
import ScriptLint.Proofs.Parser.Reading.Group
import ScriptLint.Proofs.Parser.Reading.Place
import ScriptLint.Proofs.Parser.Reading.Statement
import ScriptLint.Proofs.Parser.Recovery
import ScriptLint.Proofs.Parser.Refusal
import ScriptLint.Proofs.Parser.Rules
import ScriptLint.Proofs.Parser.Runaway
import ScriptLint.Proofs.Parser.Safety
import ScriptLint.Proofs.Parser.Safety.Command
import ScriptLint.Proofs.Parser.Safety.Group
import ScriptLint.Proofs.Parser.Safety.Statement
import ScriptLint.Proofs.Parser.Skipping
import ScriptLint.Proofs.Parser.Slices
import ScriptLint.Proofs.Parser.Spelling
import ScriptLint.Proofs.Parser.Steady
import ScriptLint.Proofs.Parser.Unclosed
import ScriptLint.Proofs.Parser.Values
import ScriptLint.Proofs.Rule.Binding
import ScriptLint.Proofs.Rule.Case
import ScriptLint.Proofs.Rule.CmdletUse
import ScriptLint.Proofs.Rule.EndOfParameters
import ScriptLint.Proofs.Rule.Pairing
import ScriptLint.Proofs.Rule.Selection
import ScriptLint.Proofs.Rule.Silence
import ScriptLint.Proofs.Source.LineIndex
import ScriptLint.Proofs.Source.Position
import ScriptLint.Proofs.Syntax.Alone
import ScriptLint.Proofs.Syntax.Balance
import ScriptLint.Proofs.Syntax.Brackets
import ScriptLint.Proofs.Syntax.ClosedGroup
import ScriptLint.Proofs.Syntax.Decode
import ScriptLint.Proofs.Syntax.Escape
import ScriptLint.Proofs.Syntax.Forest
import ScriptLint.Proofs.Syntax.Literal
import ScriptLint.Proofs.Syntax.Locality
import ScriptLint.Proofs.Syntax.Marks
import ScriptLint.Proofs.Syntax.NormalForm
import ScriptLint.Proofs.Syntax.Part
import ScriptLint.Proofs.Syntax.Preorder
import ScriptLint.Proofs.Syntax.Quoting
import ScriptLint.Proofs.Syntax.Scan
import ScriptLint.Proofs.Syntax.Scanner
import ScriptLint.Proofs.Syntax.Slice
import ScriptLint.Proofs.Syntax.Spelling
import ScriptLint.Proofs.Syntax.Spelling.Lexer
import ScriptLint.Proofs.Syntax.Spelling.Literal
import ScriptLint.Proofs.Syntax.Spelling.Token
import ScriptLint.Proofs.Syntax.Spelling.Walk
import ScriptLint.Proofs.Syntax.Tiling
import ScriptLint.Proofs.Syntax.View
import ScriptLint.Proofs.Syntax.Walk
import ScriptLint.Proofs.Syntax.Word
import ScriptLint.Rule.Basic
import ScriptLint.Rule.Binding
import ScriptLint.Rule.CmdletUse
import ScriptLint.Rule.Mandatory
import ScriptLint.Rule.Registry
import ScriptLint.Source.LineIndex
import ScriptLint.Source.Span
import ScriptLint.Syntax.Cursor
import ScriptLint.Syntax.Decode
import ScriptLint.Syntax.Encode
import ScriptLint.Syntax.Fault
import ScriptLint.Syntax.Invocations
import ScriptLint.Syntax.Lexer
import ScriptLint.Syntax.Literal
import ScriptLint.Syntax.Node
import ScriptLint.Syntax.Parse
import ScriptLint.Syntax.Parse.Command
import ScriptLint.Syntax.Parse.Group
import ScriptLint.Syntax.Parse.Statement
import ScriptLint.Syntax.Scanner
import ScriptLint.Syntax.Token
import ScriptLint.Syntax.Tree
import ScriptLint.Syntax.Walker
import ScriptLint.Text.Blank
import ScriptLint.Text.Case
import ScriptLint.Text.Letter
