import PickSyntax.Grammar.Exchange
import PickSyntax.Lexing
import PickSyntax.Proofs.Parser.Recursion

/-!
# Where an expression begins

Two definitions say where an expression begins. The lookahead (`TokenKind.beginsExpression`)
sees the kind of one token, and decides for infix operators, print lists and optional operands
whether an operand follows. The parser of operands sees the token itself and the one after it.

On every line where an expression can be read, the two say the same with one exception: a
word of the language to which a parenthesis is attached, such as `DELETE(REC, 1)`. The parser
reads it as a call, and the lookahead does not see that an operand begins there.
-/
namespace PickSyntax

open PickSyntax.Grammar

theorem isName_beginsExpression {k : TokenKind} (h : k.isName = true) :
    k.beginsExpression = true := by
  cases k <;> simp_all [TokenKind.isName, TokenKind.beginsExpression]

theorem unaryOf?_beginsExpression {k : TokenKind} {op : UnaryOp} (h : unaryOf? k = some op) :
    k.beginsExpression = true := by
  unfold unaryOf? at h
  split at h <;> simp_all [TokenKind.beginsExpression]

namespace Grammar

open PickSyntax.Parser

/-- The front token is a word of the language that only the parenthesis attached to it makes
an operand: the name of a function. -/
def isIntrinsic (tokens : List Token) : Bool :=
  match tokens with
  | [] => false
  | t :: _ =>
    match t.kind with
    | .keyword k =>
      !t.kind.beginsExpression && !k.spellsOperator && isBeforeParen tokens
    | _ => false

theorem isIntrinsic_keyword {t : Token} {ts : List Token} {k : Keyword} (h : t.kind = .keyword k) :
    isIntrinsic (t :: ts) =
      (!t.kind.beginsExpression && !k.spellsOperator && isBeforeParen (t :: ts)) := by
  simp only [isIntrinsic, h]

theorem not_isIntrinsic {t : Token} {ts : List Token} (h : t.kind.beginsExpression = true) :
    isIntrinsic (t :: ts) = false := by
  cases hk : t.kind <;> simp_all [isIntrinsic]

/-- An operand begins with a token that the lookahead knows, or with an intrinsic. -/
def Begins : List Token → Prop
  | [] => False
  | t :: ts => t.kind.beginsExpression = !isIntrinsic (t :: ts)

theorem begins_known {t : Token} {ts : List Token} (h : t.kind.beginsExpression = true) :
    Begins (t :: ts) := by
  simp only [Begins, h, not_isIntrinsic h, Bool.not_false]

theorem begins_intrinsic {t : Token} {ts : List Token} (h : isIntrinsic (t :: ts) = true) :
    Begins (t :: ts) := by
  cases hk : t.kind.beginsExpression with
  | true => rw [not_isIntrinsic hk] at h; cases h
  | false => simp only [Begins, hk, h, Bool.not_true]

theorem invalidOperand_returns {t : Token} {s : State} {Q : Expr → State → Prop} :
    Returns (invalidOperand t) s Q := by
  apply Returns.bind
  intro _ _ _ _ _ h
  cases h

theorem expected_returns {α : Type} {d : String} {s : State} {Q : α → State → Prop} :
    Returns (Parser.expected d) s Q := by
  apply Returns.bind
  intro _ _ _ _ _ h
  cases h

section Front
variable {nested : AtLevel} {s : State}

theorem primary_begins : Returns (primary nested) s fun _ _ => Begins s.rest := by
  apply Returns.look
  cases hr : s.rest with
  | nil => exact expected_returns
  | cons t ts =>
    have known (h : t.kind.beginsExpression = true) (p : Parser Expr) :
        Returns p s fun _ _ => Begins (t :: ts) := fun _ _ _ => begins_known h
    dsimp only
    refine Returns.ite (fun _ => expected_returns) fun _ => ?_
    cases hk : t.kind with
    | number | string q | systemName | identifier => exact known (by rw [hk]; rfl) _
    | symbol y =>
      cases y with
      | atSign | leftParen => exact known (by rw [hk]; rfl) _
      | _ => exact invalidOperand_returns
    | keyword k =>
      refine Returns.ite (fun h _ _ _ => ?_) fun _ => invalidOperand_returns
      cases hb : t.kind.beginsExpression with
      | true => exact begins_known hb
      | false =>
        -- The word is not soft, so the parenthesis after it has made it an operand.
        apply begins_intrinsic
        rw [isIntrinsic_keyword hk]
        have hsoft : k.isSoft = false := by
          simp only [hk, TokenKind.beginsExpression, Bool.or_eq_false_iff] at hb
          exact hb.2
        simpa [hb, hsoft] using h

theorem operand_begins : Returns (operand nested) s fun _ _ => Begins s.rest := by
  apply Returns.look
  cases ho : s.kind?.bind unaryOf? with
  | none => exact primary_begins
  | some op =>
    intro _ _ _
    obtain ⟨k, hk, hop⟩ := Option.bind_eq_some_iff.mp ho
    obtain ⟨t, ts, hr, rfl⟩ := State.rest_of_isAt (s := s) (k := k) (by simp [State.isAt, hk])
    rw [hr]
    exact begins_known (unaryOf?_beginsExpression hop)

end Front

/-- The front of an expression that is read, above whatever level. -/
theorem expressionAt_begins (level : Nat) (s : State) :
    Returns (expressionAt level) s fun _ _ => Begins s.rest := by
  rw [expressionAt_eq]
  apply Returns.bind
  intro _ _ hop _ _ _
  exact operand_begins _ _ hop

theorem expressionNext_of_begins {s : State} (hl : s.onLine = true) (h : Begins s.rest) :
    s.expressionNext = !isIntrinsic s.rest := by
  unfold State.expressionNext State.onLine at *
  cases hr : s.rest with
  | nil => rw [hr] at h; exact h.elim
  | cons t ts =>
    rw [hr] at h hl
    simp only [hl, Bool.true_and]
    exact h

/-- An operator counts when the lookahead sees an operand after it. -/
theorem infixAt?_of_binaryAt? {angled : Bool} {tokens : List Token} {op : BinaryOp} {width : Nat}
    {s : State} (h : binaryAt? angled tokens = some (op, width))
    (hs : tokens.drop width = s.rest) :
    infixAt? angled tokens = if s.expressionNext then some (op, width) else none := by
  unfold infixAt? State.expressionNext
  simp only [h, hs]
  cases s.rest <;> rfl

/-- The step of a print list after the expression of an entry. -/
def entryStep (items : List PrintEntry) (e : Expr) :
    Parser (Step (List PrintEntry) (List PrintEntry)) := do
  match ← entrySeparator with
  | some separator => return .more (items ++ [⟨e, some separator⟩])
  | none => return .done (items ++ [⟨e, none⟩])

theorem printStep_run {s s' : State} {e : Expr} (h : expression.run s = (some e, s'))
    (items : List PrintEntry) :
    (printStep items).run s =
      if s.expressionNext then (entryStep items e).run s' else (some (.done items), s) := by
  cases hn : s.expressionNext with
  | true => simp only [printStep, run_bind, run_look, hn, if_true, h]; rfl
  | false => simp [printStep, run_bind, hn]

theorem expression?_run {s s' : State} {e : Expr} (h : expression.run s = (some e, s')) :
    expression?.run s = if s.expressionNext then (some (some e), s') else (some none, s) := by
  cases hn : s.expressionNext with
  | true => simp only [expression?, run_bind, run_look, hn, if_true, h, run_pure]
  | false => simp [expression?, run_bind, hn]

/-- Wherever an expression can be read from this line, what looks ahead for an operand says
so unless the expression begins with an intrinsic: the lookahead itself, an infix operator
spelled before it, an optional operand, and a print list. At an intrinsic they all go on as
if there were no operand. -/
theorem operand_lookahead {s s' : State} {e : Expr} (hl : s.onLine = true)
    (h : expression.run s = (some e, s')) :
    s.expressionNext = !isIntrinsic s.rest ∧
    (∀ angled tokens op width, binaryAt? angled tokens = some (op, width) →
      tokens.drop width = s.rest →
      infixAt? angled tokens = if isIntrinsic s.rest then none else some (op, width)) ∧
    (expression?.run s = if isIntrinsic s.rest then (some none, s) else (some (some e), s')) ∧
    ∀ items, (printStep items).run s =
      if isIntrinsic s.rest then (some (.done items), s) else (entryStep items e).run s' := by
  have hn := expressionNext_of_begins hl (expressionAt_begins 0 s e s' h)
  have swap {α : Type} (a b : α) : (if s.expressionNext then a else b) =
      if isIntrinsic s.rest then b else a := by
    rw [hn]
    cases isIntrinsic s.rest <;> rfl
  constructor
  · exact hn
  constructor
  · intro angled tokens op width hb hs
    rw [infixAt?_of_binaryAt? hb hs, swap]
  constructor
  · rw [expression?_run h, swap]
  · intro items
    rw [printStep_run h, swap]

/-- The operand of `+` before a name: the lookahead sees it. -/
theorem operand_lookahead_name :
    let tokens := (lex "1 + Y").tokens
    let s := (State.start tokens []).drop 2
    s.expressionNext = true ∧ infixAt? false (tokens.drop 1) = some (.add, 1) := by
  intro tokens s
  have hl : s.onLine = true := by decide +kernel
  have hsome : (expression.run s).1.isSome = true := by decide +kernel
  obtain ⟨e, he⟩ := Option.isSome_iff_exists.mp hsome
  obtain ⟨hn, hi, -, -⟩ := operand_lookahead hl (Prod.ext he rfl)
  have hs : isIntrinsic s.rest = false := by decide +kernel
  rw [hs] at hn hi
  constructor
  · exact hn
  · exact hi false (tokens.drop 1) .add 1 (by decide +kernel) (by decide +kernel)

/-- An expression can be read that the lookahead does not see. -/
theorem not_expressionNext_of_run :
    ¬∀ (s s' : State) (e : Expr), s.onLine = true → expression.run s = (some e, s') →
      s.expressionNext = true := by
  intro h
  have hsome :
      (expression.run ((State.start (lex "1 + DELETE(Y)").tokens []).drop 2)).1.isSome = true := by
    decide +kernel
  obtain ⟨e, he⟩ := Option.isSome_iff_exists.mp hsome
  have hn := h _ _ e (by decide +kernel) (Prod.ext he rfl)
  revert hn
  decide +kernel

end Grammar
end PickSyntax
