import PickSyntax.Grammar.Expression
import PickSyntax.Proofs.View.Parser

/-!
# Expressions seen through a view

Operators, attachments and operands are found by the kinds of tokens and by their layout flags,
so the parsers of expressions commute with every view. The two texts that are taken apart, those
of strings and of system variables, are cut at marks that look like themselves.
-/
namespace PickSyntax.Grammar

open PickSyntax.Parser

variable {v : View}

section Tokens
variable (ts : List Token)

@[simp] theorem symbolBeside?_seen : symbolBeside? (ts.map (Token.seen v)) = symbolBeside? ts := by
  cases ts <;> rfl

@[simp] theorem binaryAt?_seen (angled : Bool) :
    binaryAt? angled (ts.map (Token.seen v)) = binaryAt? angled ts := by
  cases ts <;> simp [binaryAt?]

@[simp] theorem infixAt?_seen (angled : Bool) :
    infixAt? angled (ts.map (Token.seen v)) = infixAt? angled ts := by
  rw [infixAt?, binaryAt?_seen, infixAt?]
  cases binaryAt? angled ts with
  | none => rfl
  | some r =>
    obtain ⟨op, width⟩ := r
    simp only [← List.map_drop]
    cases ts.drop width <;> rfl

@[simp] theorem isFusedLess_seen : isFusedLess (ts.map (Token.seen v)) = isFusedLess ts := by
  rw [isFusedLess, ← List.map_tail, symbolBeside?_seen, isFusedLess]

@[simp] theorem isBeforeParen_seen : isBeforeParen (ts.map (Token.seen v)) = isBeforeParen ts := by
  rw [isBeforeParen, ← List.map_tail, symbolBeside?_seen, isBeforeParen]

@[simp] theorem attachment_seen : attachment (ts.map (Token.seen v)) = attachment ts := by
  cases ts with
  | nil => rfl
  | cons t ts =>
    have hf := isFusedLess_seen (v := v) (t :: ts)
    simp only [List.map_cons] at hf
    simp [attachment, hf]

end Tokens

theorem char_quote_iff (v : View) (q : Quote) (c : Char) : v.char c = q.char ↔ c = q.char :=
  v.char_eq_iff (by cases q <;> rfl)

theorem unquote_seen (v : View) (q : Quote) (text : List Char) :
    unquote q (text.map v.char) = (unquote q text).map v.char := by
  have hq : ∀ c, (v.char c == q.char) = (c == q.char) := fun c => by
    rw [Bool.eq_iff_iff, beq_iff_eq, beq_iff_eq, char_quote_iff]
  have hclose : ∀ inner : List Char, (if (inner.map v.char).getLast? == some q.char then
      (inner.map v.char).dropLast else inner.map v.char) =
      (if inner.getLast? == some q.char then inner.dropLast else inner).map v.char := by
    intro inner
    have hl : ((inner.map v.char).getLast? == some q.char) = (inner.getLast? == some q.char) := by
      rw [List.getLast?_map]
      cases inner.getLast? with
      | none => rfl
      | some c => exact hq c
    rw [hl, apply_ite (List.map v.char), List.map_dropLast]
  cases text with
  | nil => exact hclose []
  | cons c cs =>
    simp only [unquote, List.map_cons, hq]
    split
    · exact hclose cs
    · exact hclose (c :: cs)

@[simp] theorem systemName_seen (text : String) :
    systemName (v.text text) = v.text (systemName text) := by
  have hm : (fun c => v.char c == '@') = (· == '@') := by
    funext c
    rw [Bool.eq_iff_iff, beq_iff_eq, beq_iff_eq, v.char_eq_iff rfl]
  simp [systemName, View.text, List.dropWhile_map, Function.comp_def, hm]

section Nested
variable {nested : AtLevel} [∀ level, Commutes v (nested level)]

theorem chain_seen (level : Nat) (left : Expr) :
    (chain nested level (left.seen v)).through v = (chain nested level left).viewed v := by
  refine loop_seen (fun left => ?_) left
  simp only [chainStep, through_bind, through_eq_viewed, viewed_then, viewed_bind]
  congr 1
  funext s
  simp
  split <;> simp

instance : Commutes v (arguments nested) := @Commutes.withAngled _ _ _ _ ⟨by simp⟩ false

instance : Commutes v (oneOrTwo nested) := ⟨by simp [oneOrTwo]⟩

instance (closing : Symbol) : Commutes v (enclosed nested closing) :=
  @Commutes.withAngled _ _ _ _ ⟨by simp⟩ false

instance : Commutes v (subscripts nested) := ⟨by simp [subscripts]⟩

instance : Commutes v (angleSubscripts nested) := ⟨by simp [angleSubscripts]⟩

instance : Commutes v (named nested) where
  through_eq := by
    simp only [named, through_bind, through_eq_viewed, viewed_then, viewed_bind]
    congr 1
    funext t
    congr 1
    funext s
    simp only [Visible.seen, State.seen_rest, attachment_seen]
    cases attachment s.rest with
    | call => simp
    | dynamic =>
      simp only [through_bind, through_eq_viewed, viewed_then, viewed_bind]
      congr 1
      funext subs
      cases subs <;> simp
    | substring => simp
    | none => simp

instance : Commutes v (cursor nested) := ⟨by simp [cursor]⟩

instance : Commutes v (parenthesized nested) where
  through_eq := by
    have : Commutes v (do
        let inner ← nested 0
        let _ ← requireSymbol .rightParen
        return inner) := ⟨by simp⟩
    simp only [parenthesized, through_bind, through_eq_viewed, viewed_then, viewed_bind]
    simp

@[simp] theorem invalidOperand_seen (t : Token) :
    (invalidOperand (t.seen v)).through v = (invalidOperand t).viewed v := by
  have hf : (⟨.noOperand ("expected expression, found " ++ (t.seen v).describe), (t.seen v).span⟩ :
      Fault) = Fault.seen v ⟨.noOperand ("expected expression, found " ++ t.describe), t.span⟩ := by
    have ht : v.text "expected expression, found " = "expected expression, found " :=
      v.text_eq (by decide)
    simp [Fault.seen, Cause.seen, ht]
  simp only [invalidOperand, hf, through_bind, report_seen, through_eq_viewed, viewed_then,
    viewed_bind]

instance : Commutes v (primary nested) where
  through_eq := by
    simp only [primary, through_bind, through_eq_viewed, viewed_then, viewed_bind]
    congr 1
    funext s
    cases hr : s.rest with
    | nil => simp [hr]
    | cons t ts =>
      have hp := isBeforeParen_seen (v := v) (t :: ts)
      simp only [List.map_cons] at hp
      simp only [Visible.seen, State.seen_rest, hr, List.map_cons, hp, Token.seen_lineStart,
        State.seen_begun, Token.seen_kind]
      cases t.lineStart && s.begun with
      | true => simp
      | false =>
        cases t.kind with
        | string q => simp [View.text, unquote_seen]
        | symbol y => cases y <;> simp
        | _ => simp

instance : Commutes v (operand nested) where
  through_eq := by
    simp only [operand, through_bind, through_eq_viewed, viewed_then, viewed_bind]
    congr 1
    funext s
    simp only [Visible.seen, State.kind?_seen]
    cases s.kind?.bind unaryOf? <;> simp

instance (level : Nat) : Commutes v (expressionStep nested level) :=
  ⟨by simp [expressionStep, chain_seen]⟩

end Nested

instance (level : Nat) : Commutes v (expressionAt level) :=
  knot_seen (fun _ _ _ => inferInstance) level

instance : Commutes v expression := inferInstanceAs (Commutes v (expressionAt 0))

instance : Commutes v expression? := ⟨by simp [expression?]⟩

end PickSyntax.Grammar
