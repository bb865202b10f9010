import PickSyntax.Proofs.Layout.Lined
import PickSyntax.Proofs.Tree.Relocate

/-!
# Two runs side by side

A parser is run on two token lists that correspond, and the two runs are followed step by
step. The lists correspond up to their offsets, and the second one may go on where the first
one ends: a `Seam` says how the offsets correspond and what stands behind the end. What
stands there begins a new line or is a separator, so no parser that keeps to its line looks
across.

Two runs agree when their values and states correspond again. They may part only where the
first list has ended, and then the first run has recorded a fault that says so. Inside an
attempt such a fault would be lost. There the first run has to fail, and so has the second,
unless it has gone on beyond the end (`strict`); no reference can be written across it.

The flags of the very first token may differ between the two lists. Nothing looks at them
before a token has been consumed, and afterwards they are behind the cursor.
-/
namespace PickSyntax.Parser

variable {α β γ ι : Type}

/-- A token that no statement before it reaches: it begins a line apart from what stands
before it, or it is a separator. A lone `END` would be reached, since it closes clauses. -/
structure Boundary (t : Token) : Prop where
  apart : t.lineStart = true ∧ t.spaced = true ∨ t.kind = .symbol .semicolon
  notEnd : t.kind ≠ .keyword .END

/-- Some tokens of the list write a reference `NAME<…>` that begins before the last `n` tokens
and goes on among them. The first of these is one that is taken on whatever line it stands: a
sign before an operand in the reference, or the parenthesis that closes an empty list of
arguments in it. -/
def SpansTail (whole : List Token) (n : Nat) : Prop :=
  ∃ before ts t us after name attr value subValue span,
    whole = before ++ (ts ++ t :: (us ++ after)) ∧ ts ≠ [] ∧ (t :: (us ++ after)).length = n ∧
    Spells (ts ++ t :: us) [.dynamic name attr value subValue span] ∧
    Grammar.Exact (ts ++ t :: us) (.dynamic name attr value subValue span) ∧
    ∃ x ∈ (Expr.dynamic name attr value subValue span).nodes, x.Crosses t

/-- How two token lists correspond. -/
structure Seam where
  /-- Images of the offsets of the first list, and of the second. Offsets correspond when
  their images are equal. -/
  left : Nat → Nat
  right : Nat → Nat
  left_le : ∀ {a b}, left a ≤ left b ↔ a ≤ b
  right_le : ∀ {a b}, right a ≤ right b ↔ a ≤ b
  /-- The second list may go on where the first one ends. -/
  cut : Prop
  /-- The second list, and what it has behind the end of the first. -/
  whole : List Token
  tail : List Token
  /-- The comments of the second list behind the end of the first. -/
  after : List Comment
  boundary : ∀ t, tail.head? = some t → Boundary t
  uncut : ¬cut → tail = [] ∧ after = []
  ordered : cut → Ordered 0 whole
  /-- A token that begins a line has a blank before it, but for the very first. -/
  spaced : cut → ∀ t ∈ whole.tail, t.lineStart = true → t.spaced = true
  /-- No reference is written across the end. -/
  unspanned : ¬SpansTail whole tail.length

namespace Seam

/-- Values that are the same up to the correspondence of offsets. -/
def Same [Located α] (m : Seam) (v w : α) : Prop := relocate m.left v = relocate m.right w

/-- Tokens that correspond, whatever separates them from the tokens before. -/
structure Like (m : Seam) (t u : Token) : Prop where
  kind : t.kind = u.kind
  text : t.text = u.text
  span : m.Same t.span u.span

/-- The layout flags of two tokens are the same. -/
structure SameLayout (t u : Token) : Prop where
  spaced : t.spaced = u.spaced
  lineStart : t.lineStart = u.lineStart

/-- The second list is the first one, up to offsets, and the tail. The flags of the front
tokens are the same if they are known. -/
inductive Aligned (m : Seam) : Bool → List Token → List Token → Prop
  | nil {known : Bool} : Aligned m known [] m.tail
  | cons {known : Bool} {t u : Token} {ts us : List Token} : m.Like t u →
      (known = true → SameLayout t u) → (∀ c ∈ m.after, u.span.start ≤ c.span.start) →
      Aligned m true ts us → Aligned m known (t :: ts) (u :: us)

/-- The comments stand before what is behind the end of the first list. -/
def Before (m : Seam) (cs : List Comment) : Prop :=
  ∀ c ∈ cs, ∀ t, m.tail.head? = some t → c.span.start < t.span.start

/-- States that correspond. `known` says that a token has been consumed, so that the flags of
the token next are the same. -/
structure Lock (m : Seam) (known : Bool) (s S : State) : Prop where
  rest : m.Aligned known s.rest S.rest
  previous : known = true → ∃ t u, s.previous = some t ∧ S.previous = some u ∧
    m.left t.span.stop = m.right u.span.stop
  fresh : known = false → s.begun = false ∧ s.rest ≠ []
  begun : s.begun = S.begun
  blocks : s.blocks = S.blocks
  angled : s.angled = S.angled
  comments : ∃ cs, S.comments = cs ++ m.after ∧ m.Same s.comments cs ∧ m.Before cs
  faults : m.Same s.faults S.faults
  suffix : S.rest <:+ m.whole

/-- The second run has gone on beyond the end of the first list. -/
def Beyond (m : Seam) (S : State) : Prop := S.rest.length < m.tail.length

/-- What two runs from states that correspond amount to, given the first state. `early` marks
values of the first run that stand for an end reached too early, of which a fault is yet to
be recorded. -/
inductive Outcome (m : Seam) (strict known : Bool) (R : α → β → Prop) (early : α → Prop)
    (s : State) : Option α × State → Option β × State → Prop
  | yield {v : α} {w : β} {s' S' : State} : R v w → m.Lock true s' S' →
      Outcome m strict known R early s (some v, s') (some w, S')
  | fail {k : Bool} {s' S' : State} : m.Lock k s' S' → (known = true → k = true) →
      (k = false → s'.rest.length = s.rest.length) →
      Outcome m strict known R early s (none, s') (none, S')
  | cutoff {r : Option α × State} {r' : Option β × State} : m.cut →
      s.faults.length < r.2.faults.length →
      (strict = true → r.1 = none ∧ (r'.1 = none ∨ m.Beyond r'.2)) →
      Outcome m strict known R early s r r'
  | early {v : α} {s' : State} {r' : Option β × State} : m.cut → strict = false → early v →
      Outcome m strict known R early s (some v, s') r'

end Seam
end PickSyntax.Parser
