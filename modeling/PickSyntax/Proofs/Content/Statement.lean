import PickSyntax.Proofs.Content.Block

/-!
# The content of statements

The forms that hold clauses, the forms that begin with an expression, and the statement that ties
all forms together. A statement reaches from its first token to the last one consumed, whatever
its form has left out on the way.
-/
namespace PickSyntax.Grammar

open PickSyntax.Parser

variable {n : Nat}

theorem assignmentOrExpression_over (opener : Token) (s : State) :
    Meets (assignmentOrExpression opener) s fun ts form _ =>
      ∃ es, Over ts es ∧ content form = content es := by
  have hn (level : Nat) (s' : State) (_ : s'.rest.length < s.rest.length + 1) :=
    expressionAt_exact level s'
  refine Meets.ite (fun _ => Meets.expected) fun _ => Meets.ite (fun _ => ?_) fun _ => ?_
  · refine (expressionAt_exact 0 s).andThen fun ts e _ _ h => Meets.pure ?_
    exact ⟨[e], by simpa using h.over, by simp⟩
  · refine (primary_exact hn (Nat.le_succ _)).andThen fun ts target s₁ h₁ h => ?_
    refine Meets.look (Meets.ite (fun hat => ?_) fun _ => ?_)
    · simp only [Bool.and_eq_true] at hat
      obtain ⟨c, us, hr, -⟩ := State.rest_of_isAtOnLine hat.2
      refine Meets.bind (Meets.skipOne hr ?_)
      refine (expressionAt_exact 0 _).andThen fun us value _ _ hv => Meets.pure ?_
      exact ⟨[target] ++ [value], by simpa using h.over.append (hv.over.cons (t := c)), by simp⟩
    · refine (chain_exact hn (Nat.le_succ_of_le h₁.length_le) h).andThen
        fun us e _ _ he => Meets.pure ?_
      exact ⟨[e], by simpa using he.over, by simp⟩

theorem assignmentOrExpression_gathers (opener : Token) :
    Gathers n ∅ (assignmentOrExpression opener) := by
  refine fun s _ hs => (assignmentOrExpression_over opener s).gathersAt hs ?_
  rintro ts form s' ho ⟨es, h, hform⟩
  rw [hform, Expr.content_list]
  exact ⟨h 0 ho, rfl⟩

theorem endUnit_gathers (opener : Token) : Gathers n ∅ (endUnit opener) := by
  refine .look fun _ hlt hs => .ite (fun _ => ?_) fun _ => ?_
  · exact .here ((skip_gathers 1).next fun _ => .give (by simp)) hlt hs
  · exact .here (report_gathers.next fun _ => (skip_gathers 2).next fun _ => fail_gathers) hlt hs

section Nested
variable (hn : Gathers n ∅ statement) (opener : Token)
include hn

theorem inputAt_gathers : Gathers n ∅ (inputAt statement opener) := by
  refine (skip_gathers 1).next fun _ => require_gathers.next fun _ => ?_
  refine expression_gathers.bind fun column => require_gathers.next fun _ => ?_
  refine expression_gathers.bind fun row => require_gathers.next fun _ => ?_
  refine accept_gathers.next fun _ => name_gathers.next fun into => ?_
  refine inputLength_gathers.bind fun (length, stay) => .look fun s hlt hs => ?_
  exact .here ((clause?_gathers hn _).bind fun clause => .give (by simp)) hlt hs

theorem input_gathers : Gathers n ∅ (input statement opener) := by
  refine .look fun s hlt hs => .ite (fun _ => inputAt_gathers hn opener s hlt hs) fun _ => ?_
  refine .here (name_gathers.next fun into => ?_) hlt hs
  refine inputLength_gathers.bind fun (length, stay) => ?_
  exact (clause?_gathers hn _).bind fun clause => .give (by simp)

theorem openFile_gathers : Gathers n ∅ (openFile statement opener) := by
  refine expression_gathers.bind fun a => (afterComma_gathers expression_gathers).bind fun b => ?_
  refine (afterKeyword_gathers name_gathers).next fun into => ?_
  refine (onErrorClause_gathers hn).bind fun onError => ?_
  refine (requiredClause_gathers hn _).bind fun clause => ?_
  cases b <;> exact .give (by simp)

theorem read_gathers (mode : RecordMode) : Gathers n ∅ (read statement mode opener) := by
  refine name_gathers.next fun into => require_gathers.next fun _ => ?_
  refine (recordPath_gathers _).bind fun path => (onErrorClause_gathers hn).bind fun onError => ?_
  refine (lockedClause_gathers hn).bind fun locked => ?_
  exact (clause?_gathers hn _).bind fun clause => .give (by simp)

theorem write_gathers (mode : RecordMode) : Gathers n ∅ (write statement mode) := by
  refine expression_gathers.bind fun value => destination_gathers.next fun _ => ?_
  refine (recordPath_gathers _).bind fun path => ?_
  exact (onErrorClause_gathers hn).bind fun onError => .give (by simp)

theorem delete_gathers : Gathers n ∅ (delete statement opener) := by
  refine (recordPath_gathers _).bind fun path => (onErrorClause_gathers hn).bind fun onError => ?_
  exact (clause?_gathers hn _).bind fun clause => .give (by simp)

theorem receive_gathers (feed : Feed) : Gathers n ∅ (receive statement feed opener) :=
  name_gathers.next fun _ => (clause?_gathers hn _).map fun _ => by simp

theorem lock_gathers : Gathers n ∅ (lock statement opener) := by
  refine expression_gathers.bind fun number => (lockedClause_gathers hn).bind fun locked => ?_
  exact (clause?_gathers hn _).bind fun clause => .give (by simp)

theorem clearFile_gathers : Gathers n ∅ (clearFile statement) :=
  expression_gathers.bind fun _ => (onErrorClause_gathers hn).bind fun _ => .give (by simp)

theorem matRead_gathers (locking : Bool) : Gathers n ∅ (matRead statement locking opener) := by
  refine name_gathers.next fun array => require_gathers.next fun _ => ?_
  refine (recordPath_gathers _).bind fun path => (onErrorClause_gathers hn).bind fun onError => ?_
  refine (lockedClause_gathers hn).bind fun locked => ?_
  exact (clause?_gathers hn _).bind fun clause => .give (by simp)

theorem matWrite_gathers (locking : Bool) : Gathers n ∅ (matWrite statement locking) := by
  refine name_gathers.next fun array => destination_gathers.next fun _ => ?_
  refine (recordPath_gathers _).bind fun path => ?_
  exact (onErrorClause_gathers hn).bind fun onError => .give (by simp)

theorem locate_gathers : Gathers n ∅ (locate statement opener) := by
  refine expression_gathers.bind fun value => require_gathers.next fun _ => ?_
  refine expression_gathers.bind fun container => ?_
  refine (afterKeyword_gathers name_gathers).next fun setting => ?_
  exact (clause?_gathers hn _).bind fun clause => .give (by simp)

omit hn in
/-- A keyword that leads a form is taken before the form is read. -/
theorem led_gathers {p : Token → Parser Form} (hp : ∀ t, Gathers n ∅ (p t)) :
    Gathers (n + 1) ∅ (led p) := by
  refine fun s hlt hs => (next_gathers s hlt hs).next hs fun t s' hr _ hs' => hp t s' ?_ hs'
  have := Moves.next.lt hr
  omega

theorem keywordForm_gathers (k : Keyword) :
    Gathers (n + 1) ∅ (keywordForm statement k opener) := by
  cases k with
  | SUBROUTINE => exact led_gathers fun _ => subroutine_gathers
  | END => exact endUnit_gathers opener
  | DIM | DIMENSION => exact led_gathers fun _ => dim_gathers
  | COMMON | COM => exact led_gathers fun _ => common_gathers
  | EQUATE | EQU => exact led_gathers fun _ => equate_gathers
  | MAT => exact led_gathers fun _ => mat_gathers
  | IF => exact led_gathers (ifThen_gathers hn)
  | BEGIN => exact led_gathers (beginCase_gathers hn)
  | FOR => exact led_gathers (forNext_gathers hn)
  | LOOP => exact led_gathers (loopRepeat_gathers hn)
  | GOTO | GOSUB => exact led_gathers fun _ => jump_gathers _
  | GO => exact led_gathers fun _ => go_gathers
  | ON => exact led_gathers fun _ => jumpOn_gathers
  | RETURN => exact led_gathers fun _ => returnTo_gathers
  | PRINT => exact led_gathers fun _ => print_gathers
  | CRT => exact led_gathers fun _ => crt_gathers
  | INPUT => exact led_gathers (input_gathers hn)
  | INPUTTRAP => exact led_gathers fun _ => inputTrap_gathers
  | DATA => exact led_gathers fun _ => data_gathers
  | PRINTER | BREAK | ECHO => exact led_gathers fun _ => switch_gathers _
  | OPEN => exact led_gathers (openFile_gathers hn)
  | READ | READU | READV | READVU => exact led_gathers fun t => read_gathers hn t _
  | WRITE | WRITEU | WRITEV | WRITEVU => exact led_gathers fun _ => write_gathers hn _
  | DELETE => exact led_gathers (delete_gathers hn)
  | READNEXT | READT | PROCREAD => exact led_gathers fun t => receive_gathers hn t _
  | WRITET => exact led_gathers fun _ => writeTape_gathers
  | SELECT => exact led_gathers fun _ => select_gathers
  | LOCK => exact led_gathers (lock_gathers hn)
  | CLEARFILE => exact led_gathers fun _ => clearFile_gathers hn
  | MATREAD | MATREADU => exact led_gathers fun t => matRead_gathers hn t _
  | MATWRITE | MATWRITEU => exact led_gathers fun _ => matWrite_gathers hn _
  | LOCATE => exact led_gathers (locate_gathers hn)
  | EXECUTE => exact led_gathers fun _ => execute_gathers
  | CALL => exact led_gathers fun _ => call_gathers
  | INPUTERR | INPUTNULL | PROMPT | HEADING | FOOTING | UNLOCK | PROCWRITE | WEOF | CHAIN | ENTER
  | PRECISION => exact led_gathers fun _ => operandOf_gathers _
  | STOP | ABORT | PAGE | RELEASE | REWIND | SLEEP =>
    exact led_gathers fun _ => optionalOf_gathers _
  | RQM | NULL | CLEAR => exact led_gathers fun _ => .give (by simp)
  | NEXT | REPEAT | WHILE | UNTIL | ELSE | CASE => exact reportFail_gathers
  | _ => exact assignmentOrExpression_gathers opener

theorem form_gathers : Gathers (n + 1) ∅ (form statement opener) := by
  unfold form
  cases opener.kind with
  | keyword k => exact keywordForm_gathers hn opener k
  | _ => exact assignmentOrExpression_gathers opener

end Nested

/-- A statement gathers if those with fewer tokens do. -/
theorem statementStep_gathers (hn : Gathers n ∅ statement) :
    Gathers (n + 1) ∅ (statementStep statement) := by
  refine fun s hlt hs => .of_brings fun st s' hr => ?_
  have hmoves := statementStep_moves.lt hr
  cases hrest : s.rest with
  | nil => simp [hrest] at hmoves
  | cons t us =>
    rw [statementStep, run_bind, run_look] at hr
    simp only [hrest] at hr
    rcases hform : (form statement t).run s with ⟨_ | f, s₁⟩
    · rw [run_bind_none hform] at hr
      cases hr
    · rw [run_bind_some hform] at hr
      cases hr
      change s.Brings (content (⟨f, _⟩ : Statement)) s'
      rw [content_of_form]
      exact ((form_gathers hn t s hlt hs).brings hform).within hs hrest hmoves

/-- Every statement gathers what it reads. -/
theorem statement_gathers : Gathers n ∅ statement := by
  induction n with
  | zero => exact fun _ hlt => absurd hlt (Nat.not_lt_zero _)
  | succ n ih =>
    rw [statement_eq]
    exact statementStep_gathers ih

end PickSyntax.Grammar
