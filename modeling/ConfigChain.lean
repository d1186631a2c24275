import ConfigChain.AliasTable
import ConfigChain.Command.Arguments
import ConfigChain.Command.Report
import ConfigChain.Command.Run
import ConfigChain.Command.Style
import ConfigChain.Decimal.Binary64
import ConfigChain.Decimal.Shortest
import ConfigChain.Declaration
import ConfigChain.Declaration.Format
import ConfigChain.Expansion
import ConfigChain.Extends
import ConfigChain.FileNames
import ConfigChain.FileSystem
import ConfigChain.Ignore.Glob
import ConfigChain.Ignore.Glob.Parser
import ConfigChain.Ignore.Level
import ConfigChain.Ignore.Rule
import ConfigChain.Json.Byte
import ConfigChain.Json.Cause
import ConfigChain.Json.Grammar
import ConfigChain.Json.Literal
import ConfigChain.Json.Numeral
import ConfigChain.Json.Reader
import ConfigChain.Json.Record
import ConfigChain.Json.Relaxed
import ConfigChain.Json.Structure
import ConfigChain.Json.Value
import ConfigChain.Listing
import ConfigChain.Loading
import ConfigChain.Main
import ConfigChain.Path
import ConfigChain.Path.Ancestors
import ConfigChain.Path.Length
import ConfigChain.Path.Relative
import ConfigChain.Proofs.Path.Canonical
import ConfigChain.Proofs.Path.Joining
import ConfigChain.Proofs.Path.Pieces
import ConfigChain.Proofs.Path.Splitting
import ConfigChain.Settings
import ConfigChain.Survey
import ConfigChain.Text.Invisible
import ConfigChain.Text.Quoted
import ConfigChain.Text.Utf8
import ConfigChain.Workspace
import ConfigChain.Proofs.Path.Rebasing
import ConfigChain.Proofs.Settings.Aliases
import ConfigChain.Proofs.Settings.Nearest
import ConfigChain.Proofs.Settings.Directories
import ConfigChain.Proofs.Loading.Step
import ConfigChain.Proofs.Loading.Succession
import ConfigChain.Proofs.Loading.Nesting
import ConfigChain.Proofs.Loading.Chain
import ConfigChain.Proofs.Loading.Order
import ConfigChain.Proofs.Loading.Circles
import ConfigChain.Proofs.Loading.Session
import ConfigChain.Proofs.Loading.Origin
import ConfigChain.Proofs.Loading.Lookup
import ConfigChain.Proofs.Loading.Log
import ConfigChain.Proofs.Loading.Once
import ConfigChain.Proofs.Json.Token
import ConfigChain.Proofs.Json.Document
import ConfigChain.Proofs.Json.Lexing
import ConfigChain.Proofs.Json.Spelling
import ConfigChain.Proofs.Json.Expected
import ConfigChain.Proofs.Json.Relaxed
import ConfigChain.Proofs.Loading.Faults
import ConfigChain.Proofs.Workspace.Depth
import ConfigChain.Proofs.Workspace.Listing
import ConfigChain.Proofs.Workspace.Survey
import ConfigChain.Proofs.Expansion.Wildcard
import ConfigChain.Proofs.Expansion.Candidates
import ConfigChain.Proofs.Path.Visible
import ConfigChain.Proofs.Path.Below
import ConfigChain.Proofs.Destination.Landing
import ConfigChain.Proofs.Path.Segments
import ConfigChain.Proofs.Destination.Remainder
import ConfigChain.Proofs.Expansion.Moving
import ConfigChain.Proofs.Extends.Levels
import ConfigChain.Proofs.Extends.Walk
import ConfigChain.Proofs.Json.Kinds
import ConfigChain.Proofs.Json.Blanking
import ConfigChain.Proofs.Json.Cursor
import ConfigChain.Proofs.Json.Literals
import ConfigChain.Proofs.Json.Grammatical
import ConfigChain.Proofs.Json.Unclosed
import ConfigChain.Proofs.Json.Loose
import ConfigChain.Proofs.Json.Forgiven
import ConfigChain.Proofs.Json.Required
import ConfigChain.Proofs.Json.Shapes
import ConfigChain.Proofs.Loading.Malformed
import ConfigChain.Proofs.Path.Folding
import ConfigChain.Proofs.Path.Form
import ConfigChain.Proofs.Workspace.Exact
import ConfigChain.Proofs.Workspace.Places
import ConfigChain.Proofs.Workspace.Argument
import ConfigChain.Proofs.Path.Seams
import ConfigChain.Proofs.Loading.Naming
import ConfigChain.Proofs.Text.Encoding
import ConfigChain.Proofs.Json.Quoting
import ConfigChain.Proofs.Json.Fields
import ConfigChain.Proofs.Json.Making
import ConfigChain.Proofs.Settings.Rows
import ConfigChain.Proofs.Json.Tables
import ConfigChain.Proofs.Loading.Tables
