import Mathlib
import PickSyntax.Analysis
import PickSyntax.Proofs.Tree.Placed

/-!
# Expressions and lines
-/
namespace PickSyntax

/-- The bytes of the token lie inside the range. -/
def Token.isInside (t : Token) (span : Span) : Bool :=
  decide (span.start ≤ t.span.start) && decide (t.span.stop ≤ span.stop)

/-- Every expression of every program is written on one line. -/
def ConfinedToLines : Prop :=
  ∀ source, ∀ q ∈ (parse source).program.placed, ∀ x ∈ q.expr.nodes,
    ∀ t ∈ (lex source).tokens, t.isInside x.span = true → t.lineStart = true →
      t.span.start = q.start

/-- A sign may stand on the next line. -/
theorem not_confinedToLines : ¬ConfinedToLines := by
  intro h
  have h := h "X =\n-1"
  revert h
  decide +kernel

end PickSyntax
