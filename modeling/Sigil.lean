import Sigil.Cursor
import Sigil.Parser.Program
import Sigil.Proofs.Grammar.Basic
import Sigil.Proofs.Parser.Rules
import Sigil.Renderer
import Sigil.Tree.Walk
import Sigil.Proofs.Grammar.Sound
import Sigil.Proofs.Grammar.Complete
import Sigil.Proofs.Grammar.Exact
import Sigil.Proofs.Grammar.Language
import Sigil.Proofs.Parser.Follow
import Sigil.Proofs.Token.Filler
import Sigil.Proofs.Token.Lexeme
import Sigil.Proofs.Token.Stream
import Sigil.Proofs.Token.Part
import Sigil.Proofs.Print.Written
import Sigil.Proofs.Print.Equations
import Sigil.Proofs.Print.Expression
import Sigil.Proofs.Print.WellFormed
import Sigil.Proofs.Print.Derived
import Sigil.Proofs.Print.Lines
import Sigil.Proofs.Print.Program
import Sigil.Proofs.Parser.Languages
import Sigil.Proofs.Parser.Earliest
import Sigil.Proofs.Print.Separate
import Sigil.Proofs.Print.Simplify
import Sigil.Proofs.Print.Kept
import Sigil.Proofs.Print.Minimal
import Sigil.Proofs.Tree.Parts
import Sigil.Proofs.Print.SExpr
import Sigil.Proofs.Print.Parsed
import Sigil.Proofs.Tree.Extent
import Sigil.Proofs.Token.Shift
import Sigil.Proofs.Token.Separated
import Sigil.Proofs.Parser.Alike
import Sigil.Proofs.Parser.Layout
import Sigil.Proofs.Parser.Ladder
import Sigil.Proofs.Parser.Subscript
import Sigil.Proofs.Json.Read
import Sigil.Proofs.Json.RoundTrip
import Sigil.Proofs.Print.Document
import Sigil.Proofs.Print.Datum
import Sigil.Proofs.Print.NodeDatum
import Sigil.Proofs.Print.Faithful
import Sigil.Proofs.Token.Place
import Sigil.Proofs.Cursor.Place
import Sigil.Proofs.Tree.Place
import Sigil.Proofs.Cursor.LineComment
import Sigil.Proofs.Parser.End
import Sigil.Proofs.Grammar.Nesting
import Sigil.Proofs.Parser.Overflow
import Sigil.Proofs.Parser.Unlimited
import Sigil.Proofs.Parser.Nesting
import Sigil.Proofs.Cursor.Standstill
import Sigil.Proofs.Parser.Reported
import Sigil.Proofs.Renderer.Added
import Sigil.Proofs.Renderer.Gathered
import Sigil.Proofs.Renderer.Failed
import Sigil.Proofs.Tree.Equality
import Sigil.Proofs.Print.Unplaced
import Sigil.Proofs.Renderer.Alike
import Sigil.Proofs.Parser.Depth
import Sigil.Proofs.Parser.Progress
import Sigil.Proofs.Token.Excerpt
import Sigil.Proofs.Grammar.Standalone
import Sigil.Proofs.Tree.Excerpt
