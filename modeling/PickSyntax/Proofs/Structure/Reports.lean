import PickSyntax.Grammar.Statement
import PickSyntax.Proofs.Lexing.Tokens
import PickSyntax.Proofs.Parser.Onward

/-!
# Reports of open constructs

The report that a construct lacks its terminator starts at the keyword that opened the
construct. A parser that takes such a keyword may report it once, on whichever way it ends;
the keyword is handed along as something *owed*, and the part that reports it uses it up.

What holds of every run is a balance. For each byte of the source, the reports that start
there and the tokens not yet read that start there are together no more than before the run,
except for the tokens that were owed. The balance passes through the combinators, so it is a
class, and parsers of a single line owe and report nothing.
-/
namespace PickSyntax

open PickSyntax.Parser PickSyntax.Grammar

/-- The constructs that begin with the keyword, as reports name them. -/
def Keyword.constructs : Keyword → List String
  | .BEGIN => ["BEGIN CASE"]
  | .INPUT => ["INPUT", "INPUT@"]
  | k => [k.spelling]

/-- A report that a construct lacks its terminator. -/
def Fault.isUnclosed (f : Fault) : Bool := f.cause.faultClass == .openBlock

/-- The token is a keyword that opens the construct which the fault reports. -/
def Token.Opens (t : Token) (f : Fault) : Prop :=
  ∃ k construct terminator, t.kind = .keyword k ∧ construct ∈ k.constructs ∧
    f.cause = .openBlock construct terminator ∧ f.span.start = t.span.start

/-- How many constructs are reported at the byte. -/
def unclosedAt (n : Nat) (fs : List Fault) : Nat :=
  fs.countP fun f => f.isUnclosed && f.span.start == n

/-- How many of the tokens start at the byte. -/
def startsAt (n : Nat) (ts : List Token) : Nat := ts.countP fun t => t.span.start == n

@[simp] theorem startsAt_nil (n : Nat) : startsAt n [] = 0 := rfl

theorem startsAt_cons (n : Nat) (t : Token) (ts : List Token) :
    startsAt n (t :: ts) = startsAt n ts + startsAt n [t] := by
  simp [startsAt, List.countP_cons]

theorem startsAt_suffix {ts us : List Token} (h : us <:+ ts) (n : Nat) :
    startsAt n us ≤ startsAt n ts :=
  h.sublist.countP_le

theorem unclosedAt_report (n : Nat) (fs : List Fault) (f : Fault) :
    unclosedAt n (fs ++ [f]) = unclosedAt n fs + unclosedAt n [f] :=
  List.countP_append

theorem unclosedAt_closed {f : Fault} (h : f.isUnclosed = false) (n : Nat) :
    unclosedAt n [f] = 0 := by
  simp [unclosedAt, h]

theorem Token.Opens.unclosedAt_le {t : Token} {f : Fault} (h : t.Opens f) (n : Nat) :
    unclosedAt n [f] ≤ startsAt n [t] := by
  obtain ⟨k, construct, terminator, -, -, hc, hs⟩ := h
  have hf : f.isUnclosed = true := by
    rw [Fault.isUnclosed, hc]
    rfl
  simp only [unclosedAt, startsAt, List.countP_singleton, hf, hs, Bool.true_and]
  exact Nat.le_refl _

namespace Parser

variable {α β γ ι : Type}

/-- Between the two states, every construct reported uses up its own opening token among those
read and those owed. -/
structure State.Reported (owed : List Token) (s s' : State) : Prop where
  rest : s'.rest <:+ s.rest
  balance : ∀ n, unclosedAt n s'.faults + startsAt n s'.rest ≤
    unclosedAt n s.faults + startsAt n s.rest + startsAt n owed
  opened : ∀ f ∈ s'.faults, f.isUnclosed = true → f ∈ s.faults ∨ ∃ t ∈ owed ++ s.rest, t.Opens f

namespace State.Reported
variable {owed : List Token} {s s' s'' : State}

theorem refl (owed : List Token) (s : State) : s.Reported owed s where
  rest := List.suffix_rfl
  balance _ := Nat.le_add_right _ _
  opened _ hf _ := .inl hf

/-- Reading on without a report. -/
theorem of_suffix (hr : s'.rest <:+ s.rest) (hf : s'.faults = s.faults) : s.Reported owed s' where
  rest := hr
  balance n := by
    have hle := startsAt_suffix hr n
    rw [hf]
    omega
  opened f h _ := .inl (hf ▸ h)

theorem weaken (h : s.Reported [] s') : s.Reported owed s' where
  rest := h.rest
  balance n := Nat.le_trans (h.balance n) (Nat.add_le_add_left (Nat.zero_le _) _)
  opened f hf hu := by
    obtain hold | ⟨t, ht, hopens⟩ := h.opened f hf hu
    · exact .inl hold
    · exact .inr ⟨t, List.mem_append_right _ ht, hopens⟩

/-- What is owed is used up after the first part. -/
theorem trans (h : s.Reported [] s') (k : s'.Reported owed s'') : s.Reported owed s'' where
  rest := k.rest.trans h.rest
  balance n := by
    have hfirst := h.balance n
    have hsecond := k.balance n
    rw [startsAt_nil] at hfirst
    omega
  opened f hf hu := by
    obtain hmid | ⟨t, ht, hopens⟩ := k.opened f hf hu
    · exact h.weaken.opened f hmid hu
    · refine .inr ⟨t, ?_, hopens⟩
      obtain howed | hrest := List.mem_append.mp ht
      · exact List.mem_append_left _ howed
      · exact List.mem_append_right _ (h.rest.subset hrest)

/-- What is owed is used up in the first part. -/
theorem trans_settled (h : s.Reported owed s') (k : s'.Reported [] s'') :
    s.Reported owed s'' where
  rest := k.rest.trans h.rest
  balance n := by
    have hfirst := h.balance n
    have hsecond := k.balance n
    rw [startsAt_nil] at hsecond
    omega
  opened f hf hu := by
    obtain hmid | ⟨t, ht, hopens⟩ := k.opened f hf hu
    · exact h.opened f hmid hu
    · exact .inr ⟨t, List.mem_append_right _ (h.rest.subset ht), hopens⟩

/-- A token that has been read is owed from then on. -/
theorem of_past {t : Token} {ts : List Token} (hr : s.rest = t :: ts)
    (h : (s.past t ts).Reported [t] s') : s.Reported [] s' where
  rest := h.rest.trans (hr ▸ List.suffix_cons t ts)
  balance n := by
    have hle : unclosedAt n s'.faults + startsAt n s'.rest ≤
        unclosedAt n s.faults + startsAt n ts + startsAt n [t] := h.balance n
    rw [hr, startsAt_cons, startsAt_nil]
    omega
  opened f hf hu := by
    rw [hr]
    exact h.opened f hf hu

end State.Reported

/-- Every run of the parser uses up the opening token of each construct that it reports. -/
class Reports (owed : List Token) (p : Parser α) : Prop where
  reported : ∀ {s : State}, Ordered 0 s.rest → s.Reported owed (p.run s).2

namespace Reports
variable {owed : List Token} {t : Token} {p q : Parser α} {f : α → Parser β}

instance (priority := low) weaken [hp : Reports [] p] : Reports (t :: owed) p where
  reported ho := (hp.reported ho).weaken

instance pure (a : α) : Reports owed (pure a : Parser α) where
  reported _ := .refl _ _

instance fail : Reports [] (fail : Parser α) where
  reported _ := .refl _ _

instance look : Reports [] look where
  reported _ := .refl _ _

instance enclosing : Reports [] enclosing where
  reported {s} _ := by
    rw [enclosing_state]
    exact .refl _ _

instance skip (n : Nat) : Reports [] (skip n) where
  reported {s} _ := .of_suffix (s.reaches_drop n).rest (s.drop_faults n)

instance next : Reports [] next where
  reported {s} _ := by
    cases hr : s.rest with
    | nil => simpa [Parser.next, hr] using State.Reported.refl [] s
    | cons t ts =>
      rw [run_next hr]
      exact .of_suffix (hr ▸ List.suffix_cons t ts) rfl

instance skipToBoundary : Reports [] skipToBoundary where
  reported _ := .of_suffix (List.dropWhile_suffix _) rfl

instance pendingComments : Reports [] pendingComments where
  reported _ := .of_suffix List.suffix_rfl rfl

/-- A fault of another kind. -/
theorem report {f : Fault} (hf : f.isUnclosed = false) : Reports [] (report f) where
  reported {s} _ :=
    { rest := List.suffix_rfl
      balance n := by
        change unclosedAt n (s.faults ++ [f]) + startsAt n s.rest ≤ _
        rw [unclosedAt_report, unclosedAt_closed hf]
        exact Nat.le_refl _
      opened g hg hu := by
        obtain hold | hnew := List.mem_append.mp hg
        · exact .inl hold
        · rw [List.mem_singleton.mp hnew, hf] at hu
          cases hu }

/-- The report of an unclosed construct uses up its opening token. -/
theorem report_opens {f : Fault} (hf : t.Opens f) : Reports [t] (Parser.report f) where
  reported {s} _ :=
    { rest := List.suffix_rfl
      balance n := by
        have hle := hf.unclosedAt_le n
        change unclosedAt n (s.faults ++ [f]) + startsAt n s.rest ≤ _
        rw [unclosedAt_report]
        omega
      opened g hg hu := by
        obtain hold | hnew := List.mem_append.mp hg
        · exact .inl hold
        · exact .inr ⟨t, by simp, List.mem_singleton.mp hnew ▸ hf⟩ }

instance bind [hp : Reports [] p] [hf : ∀ a, Reports owed (f a)] : Reports owed (p >>= f) where
  reported {s} ho := by
    have h := hp.reported ho
    rcases hr : p.run s with ⟨_ | a, s'⟩ <;> rw [hr] at h
    · rw [run_bind_none hr]
      exact h.trans (.refl owed _)
    · rw [run_bind_some hr]
      exact h.trans ((hf a).reported (ho.suffix h.rest))

/-- A parser to which nothing is owed, and what follows it. -/
theorem andThen (hp : Reports [] p) (hf : ∀ a, Reports owed (f a)) : Reports owed (p >>= f) :=
  bind

/-- A parser to which nothing is owed comes first. -/
theorem past [Reports [] p] (hf : ∀ a, Reports owed (f a)) : Reports owed (p >>= f) :=
  bind

/-- The first parser may be the one that reports. -/
instance (priority := low) settle [hp : Reports (t :: owed) p] [hf : ∀ a, Reports [] (f a)] :
    Reports (t :: owed) (p >>= f) where
  reported {s} ho := by
    have h := hp.reported ho
    rcases hr : p.run s with ⟨_ | a, s'⟩ <;> rw [hr] at h
    · rwa [run_bind_none hr]
    · rw [run_bind_some hr]
      exact h.trans_settled ((hf a).reported (ho.suffix h.rest))

/-- What follows a parser that reports what is owed. -/
theorem settled (hp : Reports (t :: owed) p) (hf : ∀ a, Reports [] (f a)) :
    Reports (t :: owed) (p >>= f) :=
  settle

instance ite {c : Prop} [Decidable c] [hp : Reports owed p] [hq : Reports owed q] :
    Reports owed (if c then p else q) := by
  split
  · exact hp
  · exact hq

theorem choose {c : Prop} [Decidable c] (hp : Reports owed p) (hq : Reports owed q) :
    Reports owed (if c then p else q) :=
  ite

instance catchFailure [hp : Reports owed p] : Reports owed (catchFailure p) where
  reported := hp.reported

instance attempt [hp : Reports [] p] : Reports [] (attempt p) where
  reported {s} ho := by
    have h := hp.reported ho
    rcases hr : p.run s with ⟨_ | a, s'⟩ <;> rw [hr] at h
    · rw [run_attempt_none hr]
      exact .refl _ _
    · rwa [run_attempt_some hr]

instance withAngled (b : Bool) [hp : Reports [] p] : Reports [] (withAngled b p) where
  reported {s} ho :=
    have h := hp.reported (s := { s with angled := b }) ho
    ⟨h.rest, h.balance, h.opened⟩

instance inBlock (b : Block) [hp : Reports [] p] : Reports [] (inBlock b p) where
  reported {s} ho :=
    have h := hp.reported (s := { s with blocks := b :: s.blocks }) ho
    ⟨h.rest, h.balance, h.opened⟩

end Reports

/-- What a round of a loop may use up: a round that wants another one leaves it to that. -/
def Step.spent (owed : List Token) : Option (Step β γ) → List Token
  | some (.more _) => []
  | _ => owed

/-- A round of a loop in which only the last round may report what is owed. -/
class Rounds (owed : List Token) (p : Parser (Step β γ)) : Prop where
  reported : ∀ {s : State}, Ordered 0 s.rest →
    s.Reported (Step.spent owed (p.run s).1) (p.run s).2

namespace Rounds
variable {owed : List Token} {p q : Parser (Step β γ)} {f : α → Parser (Step β γ)}

instance (priority := low) of_reports [hp : Reports [] p] : Rounds owed p where
  reported {s} ho := by
    have h := hp.reported ho
    rcases (p.run s).1 with _ | _ | _
    · exact h.weaken
    · exact h
    · exact h.weaken

instance bind {p : Parser α} [hp : Reports [] p] [hf : ∀ a, Rounds owed (f a)] :
    Rounds owed (p >>= f) where
  reported {s} ho := by
    have h := hp.reported ho
    rcases hr : p.run s with ⟨_ | a, s'⟩ <;> rw [hr] at h
    · rw [run_bind_none hr]
      exact h.weaken
    · rw [run_bind_some hr]
      exact h.trans ((hf a).reported (ho.suffix h.rest))

theorem past {p : Parser α} [Reports [] p] (hf : ∀ a, Rounds owed (f a)) :
    Rounds owed (p >>= f) :=
  bind

theorem choose {c : Prop} [Decidable c] (hp : Rounds owed p) (hq : Rounds owed q) :
    Rounds owed (if c then p else q) := by
  split
  · exact hp
  · exact hq

instance ite {c : Prop} [Decidable c] [hp : Rounds owed p] [hq : Rounds owed q] :
    Rounds owed (if c then p else q) :=
  choose hp hq

/-- The last round. -/
theorem last {p : Parser α} [hp : Reports owed p] {c : γ} :
    Rounds (β := β) owed (p >>= fun _ => Pure.pure (.done c)) where
  reported {s} ho := by
    have h := hp.reported ho
    rcases hr : p.run s with ⟨_ | a, s'⟩ <;> rw [hr] at h
    · rwa [run_bind_none hr]
    · rwa [run_bind_some hr]

theorem loop_reported {step : β → Parser (Step β γ)} (hstep : ∀ v, Rounds owed (step v)) (v : β)
    {s : State} (ho : Ordered 0 s.rest) : s.Reported owed ((loop step v).run s).2 := by
  induction hk : s.rest.length using Nat.strongRecOn generalizing v s with
  | ind k ih =>
    have h := (hstep v).reported ho
    rw [loop_run]
    rcases hr : (step v).run s with ⟨_ | v' | c, s'⟩ <;> rw [hr] at h
    · exact h
    · dsimp only
      split
      next hlt => exact State.Reported.trans h (ih _ (hk ▸ hlt) v' (ho.suffix h.rest) rfl)
      next => exact State.Reported.weaken h
    · exact h

end Rounds

namespace Reports
variable {owed : List Token} {p : Parser α}

instance loop {step : β → Parser (Step β γ)} [hstep : ∀ v, Rounds owed (step v)] (v : β) :
    Reports owed (loop step v) where
  reported := Rounds.loop_reported hstep v

/-- A knot is known by its body around nested parsers that run behind a token. -/
theorem knot {body : (ι → Parser α) → ι → Parser α}
    (hbody : ∀ nested, (∀ i, Reports [] (nested i)) → ∀ i, Reports [] (body nested i)) (i : ι) :
    Reports [] (knot body i) where
  reported {s} ho := by
    induction hk : s.rest.length using Nat.strongRecOn generalizing i s with
    | ind k ih =>
      rw [knot_run]
      refine (hbody _ (fun j => ⟨fun {s'} ho' => ?_⟩) i).reported ho
      unfold below
      dsimp only
      split
      next hlt => exact ih _ (hk ▸ hlt) j ho' rfl
      next => exact .refl _ _

theorem State.unexpected_isUnclosed (s : State) (d : String) :
    (s.unexpected d).isUnclosed = false := by
  unfold Parser.State.unexpected
  repeat' split
  all_goals rfl

instance reportExpected (d : String) : Reports [] (reportExpected d) := by
  have (s : State) := report (State.unexpected_isUnclosed s d)
  unfold Parser.reportExpected
  infer_instance

instance expected (d : String) : Reports [] (expected d : Parser α) := by
  unfold Parser.expected
  infer_instance

instance accept (k : TokenKind) : Reports [] (accept k) := by
  unfold Parser.accept
  infer_instance

instance acceptAnywhere (k : TokenKind) : Reports [] (acceptAnywhere k) := by
  unfold Parser.acceptAnywhere
  infer_instance

instance acceptSymbol (y : Symbol) : Reports [] (acceptSymbol y) := accept _

instance acceptKeyword (k : Keyword) : Reports [] (acceptKeyword k) := accept _

instance require (k : TokenKind) (d : String) : Reports [] (require k d) := by
  unfold Parser.require
  infer_instance

instance requireSymbol (y : Symbol) : Reports [] (requireSymbol y) := require _ _

instance requireKeyword (k : Keyword) : Reports [] (requireKeyword k) := require _ _

instance name (d : String) : Reports [] (name d) := by
  unfold Parser.name
  infer_instance

instance afterKeyword? (k : Keyword) [Reports [] p] : Reports [] (afterKeyword? k p) := by
  unfold Parser.afterKeyword?
  infer_instance

instance afterComma? [Reports [] p] : Reports [] (afterComma? p) := by
  unfold Parser.afterComma?
  infer_instance

instance commaList [Reports [] p] : Reports [] (commaList p) := by
  unfold Parser.commaList Parser.commaStep
  infer_instance

instance recover (left : Nat) : Reports [] (recover left) := by
  unfold Parser.recover
  infer_instance

instance orSkip [Reports [] p] : Reports [] (orSkip p) := by
  refine @Reports.bind _ _ _ _ _ inferInstance fun o => ?_
  cases o <;> infer_instance

end Reports
end Parser

namespace Grammar

section Nested
variable {nested : AtLevel} [∀ level, Reports [] (nested level)]

instance chainStep_reports (level : Nat) (left : Expr) :
    Reports [] (chainStep nested level left) := by
  refine @Reports.bind _ _ _ _ _ inferInstance fun s => ?_
  split <;> infer_instance

instance chain_reports (level : Nat) (left : Expr) : Reports [] (chain nested level left) :=
  Reports.loop left

instance arguments_reports : Reports [] (arguments nested) := by
  unfold arguments
  infer_instance

instance oneOrTwo_reports : Reports [] (oneOrTwo nested) := by
  unfold oneOrTwo
  infer_instance

instance enclosed_reports (closing : Symbol) : Reports [] (enclosed nested closing) := by
  unfold enclosed
  infer_instance

instance subscripts_reports : Reports [] (subscripts nested) := by
  unfold subscripts
  infer_instance

instance angleSubscripts_reports : Reports [] (angleSubscripts nested) := by
  unfold angleSubscripts
  infer_instance

instance named_reports : Reports [] (named nested) := by
  refine @Reports.bind _ _ _ _ _ inferInstance fun t => ?_
  refine @Reports.bind _ _ _ _ _ inferInstance fun s => ?_
  split
  · infer_instance
  · refine @Reports.bind _ _ _ _ _ inferInstance fun o => ?_
    split <;> infer_instance
  · infer_instance
  · infer_instance

instance cursor_reports : Reports [] (cursor nested) := by
  unfold cursor
  infer_instance

instance parenthesized_reports : Reports [] (parenthesized nested) := by
  unfold parenthesized
  infer_instance

instance invalidOperand_reports (t : Token) : Reports [] (invalidOperand t) :=
  @Reports.bind _ _ _ _ _ (Reports.report rfl) inferInstance

instance primary_reports : Reports [] (primary nested) := by
  refine @Reports.bind _ _ _ _ _ inferInstance fun s => ?_
  repeat' split
  all_goals infer_instance

instance operand_reports : Reports [] (operand nested) := by
  refine @Reports.bind _ _ _ _ _ inferInstance fun s => ?_
  split <;> infer_instance

instance expressionStep_reports (level : Nat) : Reports [] (expressionStep nested level) := by
  unfold expressionStep
  infer_instance

end Nested

instance expressionAt_reports (level : Nat) : Reports [] (expressionAt level) :=
  Reports.knot (fun _ _ _ => inferInstance) level

instance expression_reports : Reports [] expression := expressionAt_reports 0

instance expression?_reports : Reports [] expression? := by
  unfold expression?
  infer_instance

instance parameters_reports : Reports [] parameters := by
  unfold parameters
  infer_instance

instance subroutine_reports : Reports [] subroutine := by
  unfold subroutine
  infer_instance

instance arrayBounds_reports : Reports [] arrayBounds := by
  unfold arrayBounds
  infer_instance

instance dim_reports : Reports [] dim := by
  unfold dim
  infer_instance

instance commonBlock_reports : Reports [] commonBlock := by
  unfold commonBlock
  infer_instance

instance common_reports : Reports [] common := by
  unfold common
  infer_instance

instance equateSense_reports : Reports [] equateSense := by
  unfold equateSense
  infer_instance

instance equate_reports : Reports [] equate := by
  unfold equate
  infer_instance

instance mat_reports : Reports [] mat := by
  unfold mat
  infer_instance

instance target_reports : Reports [] target := by
  refine @Reports.bind _ _ _ _ _ inferInstance fun s => ?_
  split <;> infer_instance

instance goKind_reports : Reports [] goKind := by
  unfold goKind
  infer_instance

instance jump_reports (kind : JumpKind) : Reports [] (jump kind) := by
  unfold jump
  infer_instance

instance go_reports : Reports [] go := by
  unfold go
  infer_instance

instance jumpOnKind_reports : Reports [] jumpOnKind := by
  unfold jumpOnKind
  infer_instance

instance jumpOn_reports : Reports [] jumpOn := by
  unfold jumpOn
  infer_instance

instance returnTo_reports : Reports [] returnTo := by
  unfold returnTo
  infer_instance

instance entrySeparator_reports : Reports [] entrySeparator := by
  unfold entrySeparator
  infer_instance

instance printStep_reports (items : List PrintEntry) : Reports [] (printStep items) := by
  refine @Reports.bind _ _ _ _ _ inferInstance fun s => @Reports.ite _ _ _ _ _ _ ?_ inferInstance
  refine @Reports.bind _ _ _ _ _ inferInstance fun e => ?_
  refine @Reports.bind _ _ _ _ _ inferInstance fun o => ?_
  split <;> infer_instance

instance printList_reports : Reports [] printList := by
  unfold printList
  infer_instance

instance print_reports : Reports [] print := by
  unfold print
  infer_instance

instance crt_reports : Reports [] crt := by
  unfold crt
  infer_instance

instance inputLength_reports : Reports [] inputLength := by
  unfold inputLength
  infer_instance

instance data_reports : Reports [] data := by
  unfold data
  infer_instance

instance switch_reports (device : Device) : Reports [] (switch device) := by
  unfold switch
  infer_instance

instance recordPath_reports (ofAttr : Bool) : Reports [] (recordPath ofAttr) := by
  refine @Reports.bind _ _ _ _ _ inferInstance fun a => ?_
  refine @Reports.bind _ _ _ _ _ inferInstance fun b => ?_
  split
  · infer_instance
  · refine @Reports.bind _ _ _ _ _ inferInstance fun c => ?_
    split <;> infer_instance

instance destination_reports : Reports [] destination := by
  unfold destination
  infer_instance

instance writeTape_reports : Reports [] writeTape := by
  unfold writeTape
  infer_instance

instance select_reports : Reports [] select := by
  unfold select
  infer_instance

instance inputTrap_reports : Reports [] inputTrap := by
  unfold inputTrap
  infer_instance

instance execute_reports : Reports [] execute := by
  unfold execute
  infer_instance

instance calledName_reports : Reports [] calledName := by
  unfold calledName
  infer_instance

instance callArguments_reports : Reports [] callArguments := by
  unfold callArguments
  infer_instance

instance call_reports : Reports [] call := by
  unfold call
  infer_instance

instance operandOf_reports (verb : OperandVerb) : Reports [] (operandOf verb) := by
  unfold operandOf
  infer_instance

instance optionalOf_reports (verb : OptionalVerb) : Reports [] (optionalOf verb) := by
  unfold optionalOf
  infer_instance

instance assignmentOrExpression_reports (opener : Token) : Reports [] (assignmentOrExpression opener) := by
  unfold assignmentOrExpression
  infer_instance

end Grammar
end PickSyntax
