import PickSyntax.Proofs.Structure.Statements
import PickSyntax.Token

/-!
# The grammar of blocks

Which tokens stand around the statements of a tree, when nothing is wrong with the source. The
grammar knows the keywords that open and close bodies and branches, and leaves open what a form
has in front of them. `Derived inside xs ys part` says that the part is written by the tokens of
`xs` in front of `ys`; the tokens `ys` that follow are part of the relation, since an `END` is
told from an `END CASE` by the token after it.

The flag `inside` says that a body which a lone `END` closes is open around the part. A lone
`END` in a list of statements is a statement only where none is.
-/
namespace PickSyntax

/-- The token is an `END` that does not begin an `END CASE`. -/
structure LoneEnd (t : Token) (after : List Token) : Prop where
  kind : t.kind = .keyword .END
  lone : ∀ u ∈ after.head?, u.lineStart = false → u.kind ≠ .keyword .CASE

/-- The token is one of the keywords, and the line goes on after it. -/
structure Leads (ks : List Keyword) (t : Token) (after : List Token) : Prop where
  kind : ∃ k ∈ ks, t.kind = .keyword k
  line : ∀ u ∈ after.head?, u.lineStart = false

/-- The range reaches from the first of the tokens in front of `ys` to the last. -/
def Covers (xs ys : List Token) (span : Span) : Prop :=
  ∃ first ts last, xs = ts ++ ys ∧ ts.head? = some first ∧ ts.getLast? = some last ∧
    span = ⟨first.span.start, last.span.stop⟩

/-- The name after a `NEXT`, or none. -/
inductive NextName : List Token → List Token → Option String → Prop
  | absent {ys : List Token} : NextName ys ys none
  | named {t : Token} {ys : List Token} : t.kind.isName = true →
      NextName (t :: ys) ys (some t.text)

/-- A lone `END` may turn a clause written on one line into a block. -/
inductive Closed : List Token → List Token → ClauseLayout → ClauseLayout → Prop
  | asIs {ys : List Token} {layout : ClauseLayout} : Closed ys ys layout layout
  | byEnd {t : Token} {ys : List Token} : LoneEnd t ys → Closed (t :: ys) ys .inline .block

/-- The parts of a tree that hold statements. -/
inductive Part where
  | items (items : List Item)
  | statement (statement : Statement)
  | form (form : Form)
  /-- A single statement after `ON ERROR` or `LOCKED`. -/
  | single (statement : Option Statement)
  | clause (clause : Option Clause)
  /-- An `ELSE` and its branch. -/
  | branch (items : List Item) (layout : ClauseLayout)
  | cases (cases : List CaseArm)

inductive Derived : Bool → List Token → List Token → Part → Prop
  -- Lists of items
  | nil {b : Bool} {xs : List Token} : Derived b xs xs (.items [])
  | comments {b : Bool} {xs ys : List Token} {is : List Item} {cs : List Comment} :
      Derived b xs ys (.items is) → (∀ c ∈ cs, ∀ t ∈ ys, c.span.stop ≤ t.span.start) →
      Derived b xs ys (.items (is ++ cs.map Item.comment))
  | separator {b : Bool} {xs ys : List Token} {t : Token} {is : List Item} :
      Derived b xs (t :: ys) (.items is) → t.kind = .symbol .semicolon →
      Derived b xs ys (.items is)
  | label {b : Bool} {xs ys : List Token} {t : Token} {is : List Item} :
      Derived b xs (t :: ys) (.items is) → t.kind = .number →
      Derived b xs ys (.items (is ++ [.label ⟨t.text, t.span⟩]))
  | item {b : Bool} {xs ys zs : List Token} {is : List Item} {st : Statement} :
      Derived b xs ys (.items is) → Derived b ys zs (.statement st) →
      (b = true → st.form ≠ .endUnit) → Derived b xs zs (.items (is ++ [.statement st]))
  -- Statements and forms
  | statement {b : Bool} {xs ys : List Token} {f : Form} {span : Span} :
      Derived b xs ys (.form f) → Covers xs ys span → Derived b xs ys (.statement ⟨f, span⟩)
  | endUnit {b : Bool} {t : Token} {ys : List Token} : LoneEnd t ys →
      Derived b (t :: ys) ys (.form .endUnit)
  | attached {b : Bool} {xs ws vs us ys : List Token} {f : Form} {a : Attachments} :
      f.attachments? = some a → ws <:+ xs → Derived b ws vs (.single a.onError) →
      Derived b vs us (.single a.locked) → Derived b us ys (.clause a.clause) →
      Derived b xs ys (.form f)
  | forNext {b : Bool} {xs us vs ys : List Token} {t : Token} {counter : String}
      {start limit : Expr} {step : Option Expr} {guard : Option LoopGuard} {body : List Item}
      {name : Option String} : us <:+ xs → Derived b us (t :: vs) (.items body) →
      t.kind = .keyword .NEXT → NextName vs ys name →
      Derived b xs ys (.form (.forNext counter start limit step guard body name))
  | loop {b : Bool} {xs us ys : List Token} {t : Token} {before : List Item} :
      us <:+ xs → Derived b us (t :: ys) (.items before) → t.kind = .keyword .REPEAT →
      Derived b xs ys (.form (.loop before none []))
  | loopGuarded {b : Bool} {xs us vs ws ys : List Token} {t : Token} {before after : List Item}
      {guard : Option LoopGuard} : us <:+ xs → Derived b us vs (.items before) → ws <:+ vs →
      Derived b ws (t :: ys) (.items after) → t.kind = .keyword .REPEAT →
      Derived b xs ys (.form (.loop before guard after))
  | beginCase {b : Bool} {xs us ys : List Token} {t u : Token} {cases : List CaseArm} :
      us <:+ xs → Derived b us (t :: u :: ys) (.cases cases) → t.kind = .keyword .END →
      u.kind = .keyword .CASE → u.lineStart = false → Derived b xs ys (.form (.beginCase cases))
  -- The clauses of a `BEGIN CASE`
  | noCase {b : Bool} {xs : List Token} : Derived b xs xs (.cases [])
  | caseSeparator {b : Bool} {xs ys : List Token} {t : Token} {cs : List CaseArm} :
      Derived b xs (t :: ys) (.cases cs) → t.kind = .symbol .semicolon →
      Derived b xs ys (.cases cs)
  | case {b : Bool} {xs us ys : List Token} {t : Token} {vs : List Token} {cs : List CaseArm}
      {condition : Expr} {leading : List Comment} {is : List Item} {span : Span} :
      Derived b xs (t :: us) (.cases cs) → t.kind = .keyword .CASE → vs <:+ us →
      Derived b vs ys (.items is) → (∀ c ∈ leading, ∀ u ∈ ys, c.span.stop ≤ u.span.start) →
      Derived b xs ys (.cases (cs ++ [⟨condition, leading.map Item.comment ++ is, span⟩]))
  -- What is attached to a form
  | noSingle {b : Bool} {xs : List Token} : Derived b xs xs (.single none)
  | single {b : Bool} {xs us ys : List Token} {t : Token} {st : Statement} : (t :: us) <:+ xs →
      Leads [.ERROR, .LOCKED] t us → Derived b us ys (.statement st) →
      Derived b xs ys (.single (some st))
  | noClause {b : Bool} {xs : List Token} : Derived b xs xs (.clause none)
  | thenInline {b : Bool} {us vs ys : List Token} {t : Token} {st : Statement}
      {layout : ClauseLayout} : Leads [.THEN] t us → Derived b us vs (.statement st) →
      Closed vs ys .inline layout →
      Derived b (t :: us) ys (.clause (some ⟨some [.statement st], none, layout⟩))
  | thenInlineElse {b : Bool} {us vs ws ys : List Token} {t : Token} {st : Statement}
      {is : List Item} {layout layout' : ClauseLayout} : Leads [.THEN] t us →
      Derived b us vs (.statement st) → Derived b vs ws (.branch is layout) →
      Closed ws ys layout layout' →
      Derived b (t :: us) ys (.clause (some ⟨some [.statement st], some is, layout'⟩))
  | elseOnly {b : Bool} {us vs ys : List Token} {is : List Item} {layout layout' : ClauseLayout} :
      Derived b us vs (.branch is layout) → Closed vs ys layout layout' →
      Derived b us ys (.clause (some ⟨none, some is, layout'⟩))
  | thenBlock {b : Bool} {us ys : List Token} {t u : Token} {is : List Item} :
      t.kind = .keyword .THEN → Derived true us (u :: ys) (.items is) → LoneEnd u ys →
      Derived b (t :: us) ys (.clause (some ⟨some is, none, .block⟩))
  | thenBlockEndElse {b : Bool} {us vs ys : List Token} {t u : Token} {is js : List Item}
      {layout : ClauseLayout} : t.kind = .keyword .THEN →
      Derived true us (u :: vs) (.items is) → LoneEnd u vs → Derived b vs ys (.branch js layout) →
      Derived b (t :: us) ys (.clause (some ⟨some is, some js, .block⟩))
  | thenBlockElse {b : Bool} {us vs ys : List Token} {t u v : Token} {is js : List Item} :
      t.kind = .keyword .THEN → Derived true us (u :: vs) (.items is) → u.kind = .keyword .ELSE →
      Derived true vs (v :: ys) (.items js) → LoneEnd v ys →
      Derived b (t :: us) ys (.clause (some ⟨some is, some js, .block⟩))
  | elseInline {b : Bool} {us ys : List Token} {t : Token} {st : Statement} :
      Leads [.ELSE] t us → Derived b us ys (.statement st) →
      Derived b (t :: us) ys (.branch [.statement st] .inline)
  | elseBlock {b : Bool} {us ys : List Token} {t u : Token} {is : List Item} :
      t.kind = .keyword .ELSE → Derived true us (u :: ys) (.items is) → LoneEnd u ys →
      Derived b (t :: us) ys (.branch is .block)

end PickSyntax
