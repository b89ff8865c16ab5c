import ProtoSchema.Text.Basic
import ProtoSchema.Text.Utf8
import ProtoSchema.Text.Printable
import ProtoSchema.Text.Quoted
import ProtoSchema.Text.Blank
import ProtoSchema.Text.DecimalDigit
import ProtoSchema.Number.Binary64
import ProtoSchema.Number.Shortest
import ProtoSchema.Number.Numeral
import ProtoSchema.Token
import ProtoSchema.Source.Reading
import ProtoSchema.Source.Escape
import ProtoSchema.Source.Lexeme
import ProtoSchema.Source.Cursor
import ProtoSchema.Source.TokenStream
import ProtoSchema.Tree.Literal
import ProtoSchema.Tree.Declaration
import ProtoSchema.Tree.Outline
import ProtoSchema.Tree.Node
import ProtoSchema.Grammar.Complaint
import ProtoSchema.Grammar.Parse
import ProtoSchema.Grammar.Name
import ProtoSchema.Grammar.Value
import ProtoSchema.Grammar.Option
import ProtoSchema.Grammar.Member
import ProtoSchema.Grammar.Message
import ProtoSchema.Grammar.Schema
import ProtoSchema.Grammar.Session
import ProtoSchema.Document.Basic
import ProtoSchema.Document.Writer
import ProtoSchema.Document.OfTree
import ProtoSchema.Settings
import ProtoSchema.Diagnostic
import ProtoSchema.Source.Session
import ProtoSchema.Source.Newline
import ProtoSchema.Source.Lexer
import ProtoSchema.Path
import ProtoSchema.FileSystem
import ProtoSchema.CommandLine.Arguments
import ProtoSchema.CommandLine.Invocation
import ProtoSchema.Command
import ProtoSchema.Main
import ProtoSchema.Proofs.Soundness
import ProtoSchema.Proofs.Completeness
import ProtoSchema.Proofs.ValidPrefix
import ProtoSchema.Proofs.Tokenization
import ProtoSchema.Proofs.StringLiteral
import ProtoSchema.Proofs.Outcome
import ProtoSchema.Proofs.Emission
import ProtoSchema.Proofs.Formatting
import ProtoSchema.Proofs.Calling
import ProtoSchema.Proofs.Placing
import ProtoSchema.Proofs.Walk
import ProtoSchema.Proofs.Joining
import ProtoSchema.Proofs.Splitting
import ProtoSchema.Proofs.Gathering
import ProtoSchema.Proofs.Mirroring
import ProtoSchema.Proofs.Expecting
import ProtoSchema.Proofs.Spelling
import ProtoSchema.Proofs.Advancing
import ProtoSchema.Proofs.LineEnds
import ProtoSchema.Proofs.Listing
import ProtoSchema.Proofs.Sharing
import ProtoSchema.Proofs.OptionName
import ProtoSchema.Proofs.Checking
import ProtoSchema.Proofs.Handling
import ProtoSchema.Proofs.Lookahead
