import Yurin.Engine.Worker
import Yurin.Log.Console
import Yurin.Main
import Yurin.Scope.Cursor
import Yurin.Proofs.Parser.Reads
import Yurin.Proofs.Parser.Sound
import Yurin.Proofs.Parser.Types
import Yurin.Proofs.Engine.Calls
import Yurin.Proofs.Highlight.Blank
import Yurin.Proofs.Parser.Spelled
import Yurin.Proofs.Skeleton.Pieces
import Yurin.Proofs.Skeleton.ReparseDeclarations
import Yurin.Proofs.Skeleton.Extensions
import Yurin.Proofs.Skeleton.RoundTrip
import Yurin.Proofs.Engine.Delivery
import Yurin.Proofs.Parser.Whole
import Yurin.Proofs.Parser.WholeDeclarations
import Yurin.Proofs.Skeleton.Lossless
import Yurin.Proofs.Text.Boundaries
import Yurin.Proofs.Token.Boundaries
import Yurin.Proofs.Text.LineBounds
import Yurin.Proofs.Highlight.Ranges
import Yurin.Proofs.Highlight.Restyling
import Yurin.Proofs.SemanticTokens.Kept
import Yurin.Proofs.Engine.Tokens
import Yurin.Proofs.Parser.LineBreaks
import Yurin.Proofs.Parser.Names
import Yurin.Proofs.Parser.Reports
import Yurin.Proofs.Parser.Initializers
import Yurin.Proofs.Engine.Transparency
import Yurin.Proofs.Scope.Agreement
import Yurin.Proofs.SemanticTokens.Flattening
import Yurin.Proofs.Command.Schedules
import Yurin.Proofs.Skeleton.Resolving
import Yurin.Proofs.Skeleton.Sites
import Yurin.Proofs.Scope.Builder
import Yurin.Proofs.Scope.Candidates
import Yurin.Proofs.Scope.Nesting
import Yurin.Proofs.Skeleton.Indexing
import Yurin.Proofs.Scope.Binding
import Yurin.Proofs.Terminal.Screen
import Yurin.Proofs.Terminal.Painting
import Yurin.Proofs.Skeleton.Outlining
import Yurin.Proofs.Skeleton.Dumping
import Yurin.Proofs.Token.Lexemes
import Yurin.Proofs.Highlight.NameSites
import Yurin.Proofs.Text.Positions
import Yurin.Proofs.Diagnostic.Carets
import Yurin.Proofs.Style.Colors
