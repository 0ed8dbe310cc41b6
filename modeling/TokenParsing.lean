import TokenParsing.Cli.Folder
import TokenParsing.Comparison
import TokenParsing.Main
import TokenParsing.Parser.Text
import TokenParsing.Proofs.Leaves
import TokenParsing.Proofs.Lookahead
import TokenParsing.Proofs.Rebuilding
import TokenParsing.Proofs.Rewinding
import TokenParsing.Proofs.Tokenize
import TokenParsing.Proofs.Truthful
import TokenParsing.Session
import TokenParsing.TokenStream.Selection
import TokenParsing.Proofs.Unread
import TokenParsing.Proofs.Likeness
import TokenParsing.Proofs.Resemblance
import TokenParsing.Proofs.Nullability
import TokenParsing.Proofs.Termination
import TokenParsing.Proofs.Extent
import TokenParsing.Proofs.Spelling
import TokenParsing.Proofs.Rereading
import TokenParsing.Proofs.Relexing
import TokenParsing.Proofs.Induction
import TokenParsing.Proofs.OneAhead
import TokenParsing.Proofs.OrderedChoice
import TokenParsing.Proofs.Expectations
import TokenParsing.Proofs.Omission
import TokenParsing.Proofs.WholeText
import TokenParsing.Proofs.Grouping
import TokenParsing.Proofs.Stopping
import TokenParsing.Proofs.Adjacency
import TokenParsing.Proofs.WordEnd
import TokenParsing.Proofs.Dissolving
import TokenParsing.Proofs.Repetition
import TokenParsing.Proofs.Peeking
import TokenParsing.Proofs.Juxtaposition
import TokenParsing.Proofs.Separation
import TokenParsing.Proofs.Announcing
import TokenParsing.Proofs.Foretelling
import TokenParsing.Proofs.Alternatives
import TokenParsing.Proofs.Furthest
import TokenParsing.Proofs.Reopening
import TokenParsing.Proofs.SilentMoves
import TokenParsing.Proofs.Nesting
import TokenParsing.Proofs.Steering
import TokenParsing.Proofs.Reporting
