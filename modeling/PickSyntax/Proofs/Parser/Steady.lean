import PickSyntax.Proofs.Expression.Climbing
import PickSyntax.Proofs.Parser.Onward

/-!
# Parsers that stay inside a statement

A statement has begun once its first token is taken, and only a statement nested in it begins
anew. So the parsers of a line leave a statement begun, whether they succeed or fail. A promise
may be one about runs anywhere in the tokens or one about runs inside a statement; a flag says
which, and the class is trivial where it is not set.
-/
namespace PickSyntax.Parser

variable {α β γ : Type} {inside : Bool}

/-- Inside a statement every run of the parser stays there, where `inside` asks for that. -/
class Steady (inside : Bool) (p : Parser α) : Prop where
  begun : inside = true → ∀ s : State, s.begun = true → (p.run s).2.begun = true

theorem State.begun_drop {s : State} (h : s.begun = true) (n : Nat) : (s.drop n).begun = true := by
  induction n generalizing s with
  | zero => exact h
  | succ n ih =>
    unfold drop
    split
    next => exact h
    next => exact ih rfl

namespace Steady
variable {p q : Parser α} {f : α → Parser β}

instance anywhere (p : Parser α) : Steady false p := ⟨nofun⟩

/-- A parser that keeps to one statement only takes tokens of it. -/
theorem of_meets {Q : List Token → α → State → Prop} (h : ∀ s, Meets p s Q) : Steady inside p where
  begun _ s hs := by
    obtain ⟨ts, ht, -⟩ := h s
    rw [ht.begun, hs, Bool.true_or]

instance pure (a : α) : Steady inside (pure a : Parser α) := ⟨fun _ _ hs => hs⟩

instance fail : Steady inside (fail : Parser α) := ⟨fun _ _ hs => hs⟩

instance look : Steady inside look := ⟨fun _ _ hs => hs⟩

instance enclosing : Steady inside enclosing := ⟨fun _ s hs => by rwa [enclosing_state s]⟩

instance report (f : Fault) : Steady inside (report f) := ⟨fun _ _ hs => hs⟩

instance skip (n : Nat) : Steady inside (skip n) := ⟨fun _ _ hs => State.begun_drop hs n⟩

instance next : Steady inside next where
  begun _ s hs := by
    cases hr : s.rest with
    | nil => simpa [Parser.next, hr] using hs
    | cons t us => rw [run_next hr]; rfl

instance skipToBoundary : Steady inside skipToBoundary where
  begun _ s hs := by simp [Parser.skipToBoundary, State.skipWhile, hs]

instance bind [hp : Steady inside p] [hf : ∀ a, Steady inside (f a)] : Steady inside (p >>= f) where
  begun hi s hs := by
    have h := hp.begun hi s hs
    rcases hr : p.run s with ⟨_ | a, s'⟩ <;> rw [hr] at h
    · rwa [run_bind_none hr]
    · rw [run_bind_some hr]
      exact (hf a).begun hi s' h

instance ite {c : Prop} [Decidable c] [hp : Steady inside p] [hq : Steady inside q] :
    Steady inside (if c then p else q) := by
  split
  · exact hp
  · exact hq

instance catchFailure [hp : Steady inside p] : Steady inside (catchFailure p) := ⟨hp.begun⟩

theorem loop_begun {step : β → Parser (Step β γ)} (hi : inside = true)
    (hstep : ∀ v, Steady inside (step v)) (v : β) (s : State) (hs : s.begun = true) :
    ((loop step v).run s).2.begun = true := by
  induction hk : s.rest.length using Nat.strongRecOn generalizing v s with
  | ind k ih =>
    have h := (hstep v).begun hi s hs
    rw [loop_run]
    rcases hr : (step v).run s with ⟨_ | v' | c, s'⟩ <;> rw [hr] at h
    · exact h
    · dsimp only
      split
      next hlt => exact ih _ (hk ▸ hlt) v' s' h rfl
      next => exact h
    · exact h

instance loop {step : β → Parser (Step β γ)} [hstep : ∀ v, Steady inside (step v)] (v : β) :
    Steady inside (loop step v) :=
  ⟨fun hi => loop_begun hi hstep v⟩

instance reportExpected (d : String) : Steady inside (reportExpected d) := by
  unfold Parser.reportExpected
  infer_instance

instance expected (d : String) : Steady inside (expected d : Parser α) := by
  unfold Parser.expected
  infer_instance

instance accept (k : TokenKind) : Steady inside (accept k) := by
  unfold Parser.accept
  infer_instance

instance acceptSymbol (y : Symbol) : Steady inside (acceptSymbol y) := accept _

instance acceptKeyword (k : Keyword) : Steady inside (acceptKeyword k) := accept _

instance acceptAnywhere (k : TokenKind) : Steady inside (acceptAnywhere k) := by
  unfold Parser.acceptAnywhere
  infer_instance

instance require (k : TokenKind) (d : String) : Steady inside (require k d) := by
  unfold Parser.require
  infer_instance

instance requireSymbol (y : Symbol) : Steady inside (requireSymbol y) := require _ _

instance requireKeyword (k : Keyword) : Steady inside (requireKeyword k) := require _ _

instance name (d : String) : Steady inside (name d) := by
  unfold Parser.name
  infer_instance

instance afterKeyword? (k : Keyword) [Steady inside p] : Steady inside (afterKeyword? k p) := by
  unfold Parser.afterKeyword?
  infer_instance

instance afterComma? [Steady inside p] : Steady inside (afterComma? p) := by
  unfold Parser.afterComma?
  infer_instance

instance commaList [Steady inside p] : Steady inside (commaList p) := by
  unfold Parser.commaList Parser.commaStep
  infer_instance

instance orSkip [Steady inside p] : Steady inside (orSkip p) := by
  unfold Parser.orSkip
  have (o : Option α) : Steady inside (match o with
      | some a => (Pure.pure (some a) : Parser (Option α))
      | none => do
        Parser.skipToBoundary
        return none) := by
    cases o <;> infer_instance
  infer_instance

end Steady
end PickSyntax.Parser

namespace PickSyntax.Grammar

open PickSyntax.Parser

variable {inside : Bool}

instance expressionAt_steady (level : Nat) : Steady inside (expressionAt level) :=
  .of_meets (expressionAt_meets level)

instance expression_steady : Steady inside expression := expressionAt_steady 0

instance expression?_steady : Steady inside expression? := by
  unfold expression?
  infer_instance

instance oneOrTwo_steady {nested : AtLevel} [∀ level, Steady inside (nested level)] :
    Steady inside (oneOrTwo nested) := by
  unfold oneOrTwo
  infer_instance

instance arrayBounds_steady : Steady inside arrayBounds := by
  unfold arrayBounds
  infer_instance

instance equateSense_steady : Steady inside equateSense := by
  unfold equateSense
  infer_instance

instance entrySeparator_steady : Steady inside entrySeparator := by
  unfold entrySeparator
  infer_instance

instance destination_steady : Steady inside destination := by
  unfold destination
  infer_instance

instance calledName_steady : Steady inside calledName := by
  unfold calledName
  infer_instance

end PickSyntax.Grammar
