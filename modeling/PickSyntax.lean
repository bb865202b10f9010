import PickSyntax.Analysis
import PickSyntax.Proofs.Expression.Ranked
import PickSyntax.Proofs.Expression.Spelled
import PickSyntax.Proofs.Account.Program
import PickSyntax.Proofs.Joined.Source
import PickSyntax.Proofs.Lexing.Coverage
import PickSyntax.Proofs.Lexing.Flags
import PickSyntax.Proofs.Parser.Progress
import PickSyntax.Proofs.Layout.Lined
import PickSyntax.Proofs.Rendering.Inline
import PickSyntax.Proofs.Rendering.Interrupted
import PickSyntax.Proofs.View.Source
import PickSyntax.Proofs.Content.Program
import PickSyntax.Proofs.Structure.Unclosed
import PickSyntax.Proofs.Structure.Terminators
import PickSyntax.Proofs.Structure.LoneEnd
import PickSyntax.Proofs.Structure.Proper
import PickSyntax.Proofs.Structure.Adjoined
import PickSyntax.Proofs.Expression.Framed
import PickSyntax.Proofs.Layout.Respaced
import PickSyntax.Proofs.View.Returns
import PickSyntax.Proofs.Order.Program
import PickSyntax.Proofs.Diagnostic.Faithful
import PickSyntax.Proofs.Diagnostic.Places
import PickSyntax.Proofs.Outline.Reading
import PickSyntax.Proofs.Lexing.Strays
