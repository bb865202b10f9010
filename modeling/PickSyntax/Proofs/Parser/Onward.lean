import PickSyntax.Grammar.Statement
import PickSyntax.Proofs.Parser.Outcome

/-!
# Runs only go on

No parser of the grammar takes a fault back or puts a token or a comment back. The one combinator that
could, an attempt that fails, leaves everything as it was before it. Nor does any parser leave
a block open behind it, or the angle context changed. The property passes through every
combinator, so it is a class, and its instances follow the definitions of the parsers.
-/
namespace PickSyntax.Parser

variable {α β γ ι : Type}

/-- `s'` is reached from `s` by going on: no fault is taken back, the tokens and the comments
left are the last of those that were, and what encloses them is the same. -/
structure State.Reaches (s s' : State) : Prop where
  faults : s.faults.length ≤ s'.faults.length
  rest : s'.rest <:+ s.rest
  comments : s'.comments <:+ s.comments
  blocks : s'.blocks = s.blocks
  angled : s'.angled = s.angled

namespace State.Reaches
variable {s s' s'' : State}

theorem refl (s : State) : s.Reaches s := ⟨Nat.le_refl _, List.suffix_rfl, List.suffix_rfl, rfl, rfl⟩

theorem trans (h : s.Reaches s') (k : s'.Reaches s'') : s.Reaches s'' :=
  ⟨Nat.le_trans h.faults k.faults, k.rest.trans h.rest, k.comments.trans h.comments,
    k.blocks.trans h.blocks, k.angled.trans h.angled⟩

end State.Reaches

/-- A run ends with at least as many faults as it began with, and with at most as many
tokens left. -/
class Onward (p : Parser α) : Prop where
  reaches : ∀ s : State, s.Reaches (p.run s).2
  faults_le : ∀ s, s.faults.length ≤ (p.run s).2.faults.length := fun s => (reaches s).faults
  rest_le : ∀ s, (p.run s).2.rest.length ≤ s.rest.length := fun s => (reaches s).rest.length_le

theorem Onward.run_reaches {p : Parser α} [hp : Onward p] {s s' : State} {v : Option α}
    (h : p.run s = (v, s')) : s.Reaches s' := by
  have hreach := hp.reaches s
  rwa [h] at hreach

theorem State.drop_faults (s : State) (n : Nat) : (s.drop n).faults = s.faults := by
  induction n generalizing s with
  | zero => rfl
  | succ n ih =>
    unfold drop
    split
    · rfl
    · rw [ih]

theorem State.drop_rest (s : State) (n : Nat) : (s.drop n).rest = s.rest.drop n := by
  induction n generalizing s with
  | zero => rfl
  | succ n ih =>
    unfold drop
    split
    next h => simp [h]
    next h => rw [ih, h, List.drop_succ_cons]

theorem State.reaches_drop (s : State) (n : Nat) : s.Reaches (s.drop n) := by
  induction n generalizing s with
  | zero => exact .refl s
  | succ n ih =>
    unfold drop
    split
    next => exact .refl s
    next t ts h =>
      have hone : s.Reaches (s.past t ts) :=
        ⟨Nat.le_refl _, h ▸ List.suffix_cons t ts, List.suffix_rfl, rfl, rfl⟩
      exact hone.trans (ih _)

theorem recover_some (left : Nat) (s : State) :
    (recover left).run s = (some (), ((recover left).run s).2) := rfl

/-- Runs `p` only while fewer than `n` tokens are left. -/
def below (n : Nat) (p : Parser α) : Parser α where
  run s := if s.rest.length < n then p.run s else (none, s)

/-- A knot is its body, with nested parsers that run only once a token has been taken. -/
theorem knot_run (body : (ι → Parser α) → ι → Parser α) (i : ι) (s : State) :
    (knot body i).run s = (body (fun j => below s.rest.length (knot body j)) i).run s := by
  change knotFrom body i s = _
  rw [knotFrom]
  rfl

namespace Onward
variable {p q : Parser α} {f : α → Parser β}

instance pure (a : α) : Onward (pure a : Parser α) where
  reaches s := .refl s

instance fail : Onward (fail : Parser α) where
  reaches s := .refl s

instance look : Onward look where
  reaches s := .refl s

instance report (f : Fault) : Onward (report f) where
  reaches _ := ⟨by simp [Parser.report], List.suffix_rfl, List.suffix_rfl, rfl, rfl⟩

instance skip (n : Nat) : Onward (skip n) where
  reaches s := s.reaches_drop n

instance next : Onward next where
  reaches s := by
    unfold Parser.next
    dsimp only
    split
    next => exact .refl s
    next t ts h => exact ⟨Nat.le_refl _, h ▸ List.suffix_cons t ts, List.suffix_rfl, rfl, rfl⟩

instance skipToBoundary : Onward skipToBoundary where
  reaches _ := ⟨Nat.le_refl _, List.dropWhile_suffix _, List.suffix_rfl, rfl, rfl⟩

instance pendingComments : Onward pendingComments where
  reaches _ := ⟨Nat.le_refl _, List.suffix_rfl, List.dropWhile_suffix _, rfl, rfl⟩

instance bind [hp : Onward p] [hf : ∀ a, Onward (f a)] : Onward (p >>= f) where
  reaches s := by
    have h := hp.reaches s
    rcases hr : p.run s with ⟨_ | a, s'⟩ <;> rw [hr] at h
    · rwa [run_bind_none hr]
    · rw [run_bind_some hr]
      exact h.trans ((hf a).reaches s')

theorem past [Onward p] (hf : ∀ a, Onward (f a)) : Onward (p >>= f) :=
  bind

/-- A fault recorded by the first parser stays. -/
theorem lt_bind [hf : ∀ a, Onward (f a)] {s : State}
    (h : s.faults.length < (p.run s).2.faults.length) :
    s.faults.length < ((p >>= f).run s).2.faults.length := by
  rcases hr : p.run s with ⟨_ | a, s'⟩ <;> rw [hr] at h
  · rwa [run_bind_none hr]
  · rw [run_bind_some hr]
    exact Nat.lt_of_lt_of_le h ((hf a).faults_le s')

instance ite {c : Prop} [Decidable c] [hp : Onward p] [hq : Onward q] :
    Onward (if c then p else q) := by
  split
  · exact hp
  · exact hq

instance catchFailure [hp : Onward p] : Onward (catchFailure p) where
  reaches := hp.reaches

instance attempt [hp : Onward p] : Onward (attempt p) where
  reaches s := by
    have h := hp.reaches s
    rcases hr : p.run s with ⟨_ | a, s'⟩ <;> rw [hr] at h
    · rw [run_attempt_none hr]
      exact .refl s
    · rwa [run_attempt_some hr]

instance withAngled (b : Bool) [hp : Onward p] : Onward (withAngled b p) where
  reaches s :=
    have h := hp.reaches { s with angled := b }
    ⟨h.faults, h.rest, h.comments, h.blocks, rfl⟩

instance inBlock (b : Block) [hp : Onward p] : Onward (inBlock b p) where
  reaches s :=
    have h := hp.reaches { s with blocks := b :: s.blocks }
    ⟨h.faults, h.rest, h.comments, congrArg List.tail h.blocks, h.angled⟩

instance enclosing : Onward enclosing where
  reaches s := by
    rw [enclosing_state]
    exact .refl s

theorem loop_reaches {step : β → Parser (Step β γ)} (hstep : ∀ v, Onward (step v)) (v : β)
    (s : State) : s.Reaches ((loop step v).run s).2 := by
  induction hk : s.rest.length using Nat.strongRecOn generalizing v s with
  | ind k ih =>
    have h := (hstep v).reaches s
    rw [loop_run]
    rcases hr : (step v).run s with ⟨_ | v' | c, s'⟩ <;> rw [hr] at h
    · exact h
    · dsimp only
      split
      next hlt => exact h.trans (ih _ (hk ▸ hlt) v' s' rfl)
      next => exact h
    · exact h

instance loop {step : β → Parser (Step β γ)} [hstep : ∀ v, Onward (step v)] (v : β) :
    Onward (loop step v) where
  reaches := loop_reaches hstep v

theorem below {n : Nat} (h : ∀ s : State, s.rest.length < n → s.Reaches (p.run s).2) :
    Onward (below n p) where
  reaches s := by
    unfold Parser.below
    dsimp only
    split
    next hlt => exact h s hlt
    next => exact .refl s

instance [hp : Onward p] (n : Nat) : Onward (Parser.below n p) :=
  below fun s _ => hp.reaches s

theorem knot_reaches {body : (ι → Parser α) → ι → Parser α}
    (hbody : ∀ nested, (∀ i, Onward (nested i)) → ∀ i, Onward (body nested i)) (i : ι)
    (s : State) : s.Reaches ((knot body i).run s).2 := by
  induction hk : s.rest.length using Nat.strongRecOn generalizing i s with
  | ind k ih =>
    rw [knot_run]
    exact (hbody _ (fun j => below fun s' hlt => ih _ (hk ▸ hlt) j s' rfl) i).reaches s

theorem knot {body : (ι → Parser α) → ι → Parser α}
    (hbody : ∀ nested, (∀ i, Onward (nested i)) → ∀ i, Onward (body nested i)) (i : ι) :
    Onward (knot body i) where
  reaches := knot_reaches hbody i

instance reportExpected (d : String) : Onward (reportExpected d) := by
  unfold Parser.reportExpected
  infer_instance

instance expected (d : String) : Onward (expected d : Parser α) := by
  unfold Parser.expected
  infer_instance

instance accept (k : TokenKind) : Onward (accept k) := by
  unfold Parser.accept
  infer_instance

instance acceptAnywhere (k : TokenKind) : Onward (acceptAnywhere k) := by
  unfold Parser.acceptAnywhere
  infer_instance

instance acceptSymbol (y : Symbol) : Onward (acceptSymbol y) := accept _

instance acceptKeyword (k : Keyword) : Onward (acceptKeyword k) := accept _

instance require (k : TokenKind) (d : String) : Onward (require k d) := by
  unfold Parser.require
  infer_instance

instance requireSymbol (y : Symbol) : Onward (requireSymbol y) := require _ _

instance requireKeyword (k : Keyword) : Onward (requireKeyword k) := require _ _

instance name (d : String) : Onward (name d) := by
  unfold Parser.name
  infer_instance

instance afterKeyword? (k : Keyword) [Onward p] : Onward (afterKeyword? k p) := by
  unfold Parser.afterKeyword?
  infer_instance

instance afterComma? [Onward p] : Onward (afterComma? p) := by
  unfold Parser.afterComma?
  infer_instance

instance commaList [Onward p] : Onward (commaList p) := by
  unfold Parser.commaList Parser.commaStep
  infer_instance

instance recover (left : Nat) : Onward (recover left) := by
  unfold Parser.recover
  infer_instance

instance orSkip [Onward p] : Onward (orSkip p) := by
  unfold Parser.orSkip
  have (o : Option α) : Onward (match o with
      | some a => (Pure.pure (some a) : Parser (Option α))
      | none => do
        Parser.skipToBoundary
        return none) := by
    cases o <;> infer_instance
  infer_instance

end Onward
end PickSyntax.Parser

namespace PickSyntax.Grammar

open PickSyntax.Parser

section Nested
variable {nested : AtLevel} [∀ level, Onward (nested level)]

instance chainStep_onward (level : Nat) (left : Expr) : Onward (chainStep nested level left) := by
  refine @Onward.bind _ _ _ _ inferInstance fun s => ?_
  split <;> infer_instance

instance chain_onward (level : Nat) (left : Expr) : Onward (chain nested level left) :=
  Onward.loop left

instance arguments_onward : Onward (arguments nested) := by
  unfold arguments
  infer_instance

instance oneOrTwo_onward : Onward (oneOrTwo nested) := by
  unfold oneOrTwo
  infer_instance

instance enclosed_onward (closing : Symbol) : Onward (enclosed nested closing) := by
  unfold enclosed
  infer_instance

instance subscripts_onward : Onward (subscripts nested) := by
  unfold subscripts
  infer_instance

instance angleSubscripts_onward : Onward (angleSubscripts nested) := by
  unfold angleSubscripts
  infer_instance

instance named_onward : Onward (named nested) := by
  refine @Onward.bind _ _ _ _ inferInstance fun t => @Onward.bind _ _ _ _ inferInstance fun s => ?_
  split
  · infer_instance
  · refine @Onward.bind _ _ _ _ inferInstance fun o => ?_
    split <;> infer_instance
  · infer_instance
  · infer_instance

instance cursor_onward : Onward (cursor nested) := by
  unfold cursor
  infer_instance

instance parenthesized_onward : Onward (parenthesized nested) := by
  unfold parenthesized
  infer_instance

instance invalidOperand_onward (t : Token) : Onward (invalidOperand t) := by
  unfold invalidOperand
  infer_instance

instance primary_onward : Onward (primary nested) := by
  refine @Onward.bind _ _ _ _ inferInstance fun s => ?_
  repeat' split
  all_goals infer_instance

instance operand_onward : Onward (operand nested) := by
  refine @Onward.bind _ _ _ _ inferInstance fun s => ?_
  split <;> infer_instance

instance expressionStep_onward (level : Nat) : Onward (expressionStep nested level) := by
  unfold expressionStep
  infer_instance

end Nested

instance expressionAt_onward (level : Nat) : Onward (expressionAt level) :=
  Onward.knot (fun _ _ _ => inferInstance) level

instance expression_onward : Onward expression := expressionAt_onward 0

instance expression?_onward : Onward expression? := by
  unfold expression?
  infer_instance

instance parameters_onward : Onward parameters := by
  unfold parameters
  infer_instance

instance subroutine_onward : Onward subroutine := by
  unfold subroutine
  infer_instance

instance arrayBounds_onward : Onward arrayBounds := by
  unfold arrayBounds
  infer_instance

instance dim_onward : Onward dim := by
  unfold dim
  infer_instance

instance commonBlock_onward : Onward commonBlock := by
  unfold commonBlock
  infer_instance

instance common_onward : Onward common := by
  unfold common
  infer_instance

instance equateSense_onward : Onward equateSense := by
  unfold equateSense
  infer_instance

instance equate_onward : Onward equate := by
  unfold equate
  infer_instance

instance mat_onward : Onward mat := by
  unfold mat
  infer_instance

instance target_onward : Onward target := by
  refine @Onward.bind _ _ _ _ inferInstance fun s => ?_
  split <;> infer_instance

instance goKind_onward : Onward goKind := by
  unfold goKind
  infer_instance

instance jump_onward (kind : JumpKind) : Onward (jump kind) := by
  unfold jump
  infer_instance

instance go_onward : Onward go := by
  unfold go
  infer_instance

instance jumpOnKind_onward : Onward jumpOnKind := by
  unfold jumpOnKind
  infer_instance

instance jumpOn_onward : Onward jumpOn := by
  unfold jumpOn
  infer_instance

instance returnTo_onward : Onward returnTo := by
  unfold returnTo
  infer_instance

instance reportUnclosed_onward (owner : Owner) (d : String) : Onward (reportUnclosed owner d) :=
  Onward.report _

instance closeBlock_onward (owner : Owner) (d : String) (stop : BodyEnd) :
    Onward (closeBlock owner d stop) := by
  cases stop <;> (unfold closeBlock; infer_instance)

instance beginStatement_onward : Onward beginStatement where
  reaches _ := ⟨Nat.le_refl _, List.suffix_rfl, List.suffix_rfl, rfl, rfl⟩

instance endStatement_onward (left : Nat) : Onward (endStatement left) := by
  unfold endStatement
  infer_instance

instance commentItems_onward : Onward commentItems := by
  unfold commentItems
  infer_instance

section Statements
variable {statement : Parser Statement} [Onward statement]

instance item_onward : Onward (item statement) := by
  refine @Onward.bind _ _ _ _ inferInstance fun s => ?_
  split
  · infer_instance
  · refine @Onward.bind _ _ _ _ inferInstance fun _ => ?_
    refine @Onward.bind _ _ _ _ inferInstance fun o => ?_
    split <;> infer_instance

instance bodyStep_onward (block : Block) (items : List Item) :
    Onward (bodyStep statement block items) := by
  unfold bodyStep
  infer_instance

instance body_onward (block : Block) : Onward (body statement block) := by
  unfold body
  infer_instance

instance programStep_onward (items : List Item) : Onward (programStep statement items) := by
  unfold programStep
  infer_instance

instance clauseStatement_onward : Onward (clauseStatement statement) := by
  unfold clauseStatement
  infer_instance

instance onErrorClause_onward : Onward (onErrorClause statement) := by
  unfold onErrorClause
  infer_instance

instance lockedClause_onward : Onward (lockedClause statement) := by
  unfold lockedClause
  infer_instance

variable (owner : Owner)

instance elseBlock_onward : Onward (elseBlock statement owner) := by
  unfold elseBlock
  infer_instance

instance elseBranch_onward : Onward (elseBranch statement owner) := by
  unfold elseBranch
  infer_instance

instance thenBlock_onward : Onward (thenBlock statement owner) := by
  unfold thenBlock
  infer_instance

instance closeInline_onward (clause : Clause) : Onward (closeInline clause) := by
  unfold closeInline
  infer_instance

instance thenInline_onward : Onward (thenInline statement owner) := by
  unfold thenInline
  infer_instance

instance clause?_onward : Onward (clause? statement owner) := by
  unfold clause?
  infer_instance

instance requiredClause_onward : Onward (requiredClause statement owner) := by
  refine @Onward.bind _ _ _ _ inferInstance fun o => ?_
  split <;> infer_instance

instance loopGuard_onward (sense : GuardSense) : Onward (loopGuard sense) := by
  unfold loopGuard
  infer_instance

instance forGuard_onward : Onward forGuard := by
  refine @Onward.bind _ _ _ _ inferInstance fun s => ?_
  split <;> infer_instance

instance nextName_onward : Onward nextName := by
  unfold nextName
  infer_instance

instance ifThen_onward (opener : Token) : Onward (ifThen statement opener) := by
  unfold ifThen
  infer_instance

instance forNext_onward (opener : Token) : Onward (forNext statement opener) := by
  unfold forNext
  infer_instance

instance loopRest_onward (sense : GuardSense) : Onward (loopRest statement owner sense) := by
  unfold loopRest
  infer_instance

instance loopRepeat_onward (opener : Token) : Onward (loopRepeat statement opener) := by
  refine @Onward.bind _ _ _ _ inferInstance fun r => ?_
  refine @Onward.ite _ _ _ _ _ ?_ inferInstance
  refine @Onward.bind _ _ _ _ inferInstance fun s => ?_
  split <;> infer_instance

instance caseArm_onward (leading : List Item) : Onward (caseArm statement leading) := by
  unfold caseArm
  infer_instance

instance abandonCases_onward (cases : List CaseArm) : Onward (abandonCases owner cases) := by
  unfold abandonCases
  infer_instance

instance caseArmStep_onward (p : CaseProgress) : Onward (caseArmStep statement owner p) := by
  refine @Onward.bind _ _ _ _ inferInstance fun r => ?_
  dsimp only
  split <;> infer_instance

instance caseStep_onward (p : CaseProgress) : Onward (caseStep statement owner p) := by
  unfold caseStep
  infer_instance

instance caseArms_onward : Onward (caseArms statement owner) := by
  unfold caseArms
  infer_instance

instance beginCase_onward (opener : Token) : Onward (beginCase statement opener) := by
  unfold beginCase
  infer_instance

end Statements

instance entrySeparator_onward : Onward entrySeparator := by
  unfold entrySeparator
  infer_instance

instance printStep_onward (items : List PrintEntry) : Onward (printStep items) := by
  refine @Onward.bind _ _ _ _ inferInstance fun s => @Onward.ite _ _ _ _ _ ?_ inferInstance
  refine @Onward.bind _ _ _ _ inferInstance fun e => @Onward.bind _ _ _ _ inferInstance fun o => ?_
  split <;> infer_instance

instance printList_onward : Onward printList := by
  unfold printList
  infer_instance

instance print_onward : Onward print := by
  unfold print
  infer_instance

instance crt_onward : Onward crt := by
  unfold crt
  infer_instance

instance inputLength_onward : Onward inputLength := by
  unfold inputLength
  infer_instance

instance data_onward : Onward data := by
  unfold data
  infer_instance

instance switch_onward (device : Device) : Onward (switch device) := by
  unfold switch
  infer_instance

instance recordPath_onward (ofAttr : Bool) : Onward (recordPath ofAttr) := by
  refine @Onward.bind _ _ _ _ inferInstance fun a => @Onward.bind _ _ _ _ inferInstance fun b => ?_
  split
  · infer_instance
  · refine @Onward.bind _ _ _ _ inferInstance fun c => ?_
    split <;> infer_instance

instance destination_onward : Onward destination := by
  unfold destination
  infer_instance

instance writeTape_onward : Onward writeTape := by
  unfold writeTape
  infer_instance

instance select_onward : Onward select := by
  unfold select
  infer_instance

instance inputTrap_onward : Onward inputTrap := by
  unfold inputTrap
  infer_instance

instance execute_onward : Onward execute := by
  unfold execute
  infer_instance

instance calledName_onward : Onward calledName := by
  unfold calledName
  infer_instance

instance callArguments_onward : Onward callArguments := by
  unfold callArguments
  infer_instance

instance call_onward : Onward call := by
  unfold call
  infer_instance

instance operandOf_onward (verb : OperandVerb) : Onward (operandOf verb) := by
  unfold operandOf
  infer_instance

instance optionalOf_onward (verb : OptionalVerb) : Onward (optionalOf verb) := by
  unfold optionalOf
  infer_instance

section Exchange
variable {statement : Parser Statement} [Onward statement] (opener : Token)

instance inputAt_onward : Onward (inputAt statement opener) := by
  refine .past fun _ => .past fun _ => .past fun column => .past fun _ => .past fun row => ?_
  refine .past fun _ => .past fun _ => .past fun into => .past fun length => .past fun s => ?_
  exact .past fun clause => .pure _

instance input_onward : Onward (input statement opener) := by
  unfold input
  infer_instance

instance openFile_onward : Onward (openFile statement opener) := by
  refine @Onward.bind _ _ _ _ inferInstance fun a => @Onward.bind _ _ _ _ inferInstance fun b => ?_
  cases b <;> infer_instance

instance read_onward (mode : RecordMode) : Onward (read statement mode opener) := by
  unfold read
  infer_instance

instance write_onward (mode : RecordMode) : Onward (write statement mode) := by
  unfold write
  infer_instance

instance delete_onward : Onward (delete statement opener) := by
  unfold delete
  infer_instance

instance receive_onward (feed : Feed) : Onward (receive statement feed opener) := by
  unfold receive
  infer_instance

instance lock_onward : Onward (lock statement opener) := by
  unfold lock
  infer_instance

instance clearFile_onward : Onward (clearFile statement) := by
  unfold clearFile
  infer_instance

instance matRead_onward (locking : Bool) : Onward (matRead statement locking opener) := by
  unfold matRead
  infer_instance

instance matWrite_onward (locking : Bool) : Onward (matWrite statement locking) := by
  unfold matWrite
  infer_instance

instance locate_onward : Onward (locate statement opener) := by
  unfold locate
  infer_instance

instance strayTerminator_onward (terminator word : String) (span : Span) :
    Onward (strayTerminator terminator word span) := by
  unfold strayTerminator
  infer_instance

instance endUnit_onward : Onward (endUnit opener) := by
  unfold endUnit
  infer_instance

instance assignmentOrExpression_onward : Onward (assignmentOrExpression opener) := by
  unfold assignmentOrExpression
  infer_instance

instance led_onward {p : Token → Parser Form} [∀ t, Onward (p t)] : Onward (led p) := by
  unfold led
  infer_instance

instance keywordForm_onward (k : Keyword) : Onward (keywordForm statement k opener) := by
  cases k <;> (unfold keywordForm; infer_instance)

instance form_onward : Onward (form statement opener) := by
  unfold form
  split <;> infer_instance

instance statementStep_onward : Onward (statementStep statement) := by
  refine @Onward.bind _ _ _ _ inferInstance fun s => ?_
  split <;> infer_instance

end Exchange

instance statement_onward : Onward statement :=
  Onward.knot (fun _ h _ => @statementStep_onward _ (h ())) ()

end PickSyntax.Grammar
