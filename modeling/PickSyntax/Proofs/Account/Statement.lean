import PickSyntax.Grammar.Statement
import PickSyntax.Proofs.Account.Block

/-!
# Accounts of statements

The forms that hold clauses, the forms that begin with an expression, and the statement that
ties all forms together. The first token of a form led by a keyword is taken before anything
nested is read, and so the account of a statement follows from that of shorter ones.
-/
namespace PickSyntax.Grammar

open PickSyntax.Parser

variable {n : Nat}

/-- The tokens of an assignment or a bare expression. -/
inductive Plain : List Token → Form → Prop
  | expression {ts : List Token} {e : Expr} : Spells ts [e] → Plain ts (.expression e)
  | assignment {ts us : List Token} {c : Token} {target value : Expr} : Spells ts [target] →
      c.kind = .symbol .equals → Spells us [value] → Plain (ts ++ c :: us) (.assignment target value)

theorem assignmentOrExpression_meets (opener : Token) (s : State) :
    Meets (assignmentOrExpression opener) s fun ts form _ => Plain ts form := by
  have hn (level : Nat) (s' : State) (_ : s'.rest.length < s.rest.length + 1) :=
    expressionAt_meets level s'
  refine Meets.ite (fun _ => Meets.expected) fun _ => Meets.ite (fun _ => ?_) fun _ => ?_
  · refine (expressionAt_meets 0 s).andThen fun ts e _ _ h => Meets.pure ?_
    simpa using .expression h.spells
  · refine (primary_meets hn (Nat.le_succ _)).andThen fun ts target s₁ h₁ h => ?_
    refine Meets.look (Meets.ite (fun hat => ?_) fun _ => ?_)
    · simp only [Bool.and_eq_true] at hat
      obtain ⟨c, us, hr, hc, -⟩ := State.rest_of_isAtOnLine hat.2
      refine Meets.bind (Meets.skipOne hr ?_)
      refine (expressionAt_meets 0 _).andThen fun us value _ _ hv => Meets.pure ?_
      simpa using .assignment h.spells hc hv.spells
    · refine (chain_meets hn (Nat.le_succ_of_le h₁.length_le) h.chained).andThen
        fun us e _ _ he => Meets.pure ?_
      simpa using .expression he.spells

theorem Plain.leaves {ts : List Token} {form : Form} (h : Plain ts form)
    (hw : ∀ t ∈ ts, t.WellSpelled) : ts ≠ [] ∧ form.leaves = leavesOf ts ∧ Settled ts := by
  cases h with
  | expression he =>
    obtain ⟨hl, hs⟩ := he.leaves hw
    exact ⟨he.ne_nil (by simp), by simpa using hl, hs⟩
  | assignment ht hc hv =>
    obtain ⟨hl, -⟩ := ht.leaves fun t hm => hw t (by simp [hm])
    obtain ⟨hl', hs⟩ := hv.leaves fun t hm => hw t (by simp [hm])
    simp only [Expr.leavesAll, List.append_nil] at hl hl'
    refine ⟨by simp, by simp [hl, hl', Token.leaves, hc], ?_⟩
    rw [settled_append_of_ne_nil (by simp), ← List.singleton_append,
      settled_append_of_ne_nil (hv.ne_nil (by simp))]
    exact hs

theorem assignmentOrExpression_accounts (opener : Token) :
    Accounts n [] (assignmentOrExpression opener) always Form.leaves := by
  intro s _ hw
  refine (assignmentOrExpression_meets opener s).accountsAt hw fun ts form _ _ hts h => ?_
  obtain ⟨hne, hl, hs⟩ := h.leaves hts
  exact ⟨fun _ => hne, hl, hs⟩

theorem strayTerminator_accounts {terminator opener : String} {span : Span} :
    Accounts n [] (strayTerminator terminator opener span) always Form.leaves :=
  reportFail_accounts

theorem endUnit_accountsAt {s : State} {t : Token} {us : List Token} (hs : s.rest.length < n)
    (hw : s.WellSpelled) (hr : s.rest = t :: us) (ht : t.kind = .keyword .END) :
    AccountsAt [] (endUnit t) always Form.leaves s := by
  refine AccountsAt.look (AccountsAt.ite (fun _ => ?_) fun _ => ?_)
  · exact Accounts.skipOne (Accounts.give (by simp) rfl) hr (by rw [ht]; rfl) hs hw
  · obtain ⟨ts, hts, hf, -⟩ := went_drop { s with faults := s.faults ++ [_] } 2
    refine ⟨ts, ?_, fun he => ?_⟩
    · exact ⟨hts.rest, hts.previous, hts.blocks, hts.angled,
        (List.prefix_append _ _).trans hts.faults⟩
    · exact absurd (hf.symm.trans he) (by simp)

section Nested
variable {nested : Parser Statement} (hn : Accounts n [] nested always Statement.leaves)
variable (opener : Token)
include hn

theorem inputAt_accountsAt {s : State} {t : Token} {us : List Token} (hs : s.rest.length < n)
    (hw : s.WellSpelled) (hr : s.rest = t :: us) (ht : t.kind = .symbol .atSign) :
    AccountsAt [] (inputAt nested opener) never Form.leaves s := by
  refine Accounts.skipOne (requireOpening_accounts fun _ => ?_) hr (by rw [ht]; rfl) hs hw
  refine expression_accounts.bind fun column => (require_accounts rfl).andThen fun _ => ?_
  refine expression_accounts.andThen fun row => (require_accounts rfl).andThen fun _ => ?_
  refine (accept_accounts rfl).andThen fun _ => name_accounts.andThen fun into => ?_
  refine inputLength_accounts.andThen fun length => Accounts.look fun s hs hw => ?_
  refine ((clause?_accounts hn _).andThen fun clause => Accounts.give ?_ rfl) s hs hw
  simp

theorem input_accounts : Accounts n [] (input nested opener) never Form.leaves := by
  refine Accounts.look fun s hs hw => AccountsAt.ite (fun h => ?_) fun _ => ?_
  · obtain ⟨t, us, hr, hk, -⟩ := State.rest_of_isAtOnLine h
    exact inputAt_accountsAt hn opener hs hw hr hk
  · refine (name_accounts.andThen fun into => inputLength_accounts.andThen fun length => ?_) s hs hw
    exact (clause?_accounts hn _).andThen fun clause => Accounts.give (by simp) rfl

theorem openFile_accounts : Accounts n [] (openFile nested opener) never Form.leaves := by
  refine expression_accounts.andThen fun a => afterComma_expression_accounts.andThen fun b => ?_
  refine (afterKeyword_name_accounts rfl).andThen fun into => ?_
  refine (onErrorClause_accounts hn).andThen fun onError => ?_
  refine (requiredClause_accounts hn _).andThen fun clause => ?_
  cases b <;> exact Accounts.give (by simp) rfl

theorem read_accounts (mode : RecordMode) :
    Accounts n [] (read nested mode opener) never Form.leaves := by
  refine name_accounts.andThen fun into => (require_accounts rfl).andThen fun _ => ?_
  refine (recordPath_accounts _).andThen fun path => ?_
  refine (onErrorClause_accounts hn).andThen fun onError => ?_
  refine (lockedClause_accounts hn).andThen fun locked => ?_
  exact (clause?_accounts hn _).andThen fun clause => Accounts.give (by simp) rfl

theorem write_accounts (mode : RecordMode) : Accounts n [] (write nested mode) never Form.leaves := by
  refine expression_accounts.andThen fun value => destination_accounts.andThen fun _ => ?_
  refine (recordPath_accounts _).andThen fun path => ?_
  exact (onErrorClause_accounts hn).andThen fun onError => Accounts.give (by simp) rfl

theorem delete_accounts : Accounts n [] (delete nested opener) never Form.leaves := by
  refine (recordPath_accounts _).andThen fun path => ?_
  refine (onErrorClause_accounts hn).andThen fun onError => ?_
  exact (clause?_accounts hn _).andThen fun clause => Accounts.give (by simp) rfl

theorem receive_accounts (feed : Feed) :
    Accounts n [] (receive nested feed opener) never Form.leaves := by
  refine name_accounts.andThen fun into => ?_
  exact (clause?_accounts hn _).andThen fun clause => Accounts.give (by simp) rfl

theorem lock_accounts : Accounts n [] (lock nested opener) never Form.leaves := by
  refine expression_accounts.andThen fun number => ?_
  refine (lockedClause_accounts hn).andThen fun locked => ?_
  exact (clause?_accounts hn _).andThen fun clause => Accounts.give (by simp) rfl

theorem clearFile_accounts : Accounts n [] (clearFile nested) never Form.leaves := by
  refine expression_accounts.andThen fun file => ?_
  exact (onErrorClause_accounts hn).andThen fun onError => Accounts.give (by simp) rfl

theorem matRead_accounts (locking : Bool) :
    Accounts n [] (matRead nested locking opener) never Form.leaves := by
  refine name_accounts.andThen fun array => (require_accounts rfl).andThen fun _ => ?_
  refine (recordPath_accounts _).andThen fun path => ?_
  refine (onErrorClause_accounts hn).andThen fun onError => ?_
  refine (lockedClause_accounts hn).andThen fun locked => ?_
  exact (clause?_accounts hn _).andThen fun clause => Accounts.give (by simp) rfl

theorem matWrite_accounts (locking : Bool) :
    Accounts n [] (matWrite nested locking) never Form.leaves := by
  refine name_accounts.andThen fun array => destination_accounts.andThen fun _ => ?_
  refine (recordPath_accounts _).andThen fun path => ?_
  exact (onErrorClause_accounts hn).andThen fun onError => Accounts.give (by simp) rfl

theorem locate_accounts : Accounts n [] (locate nested opener) never Form.leaves := by
  refine expression_accounts.andThen fun value => (require_accounts rfl).andThen fun _ => ?_
  refine expression_accounts.andThen fun container => ?_
  refine (afterKeyword_name_accounts rfl).andThen fun setting => ?_
  exact (clause?_accounts hn _).andThen fun clause => Accounts.give (by simp) rfl

omit hn in
/-- A keyword that leads a form is taken before the form is read. -/
theorem led_accountsAt {p : Token → Parser Form} {s : State} {t : Token} {us : List Token}
    (hp : ∀ t, Accounts n [] (p t) never Form.leaves) (hs : s.rest.length < n + 1)
    (hw : s.WellSpelled) (hr : s.rest = t :: us) (ht : t.kind.isPlain = true) :
    AccountsAt [] (led p) always Form.leaves s := by
  have hone : s.Went [t] (s.past t us) := (State.took_past hr).went List.prefix_rfl
  have hlt := hone.length_lt (by simp)
  exact (hp t _ (by omega) (hone.wellSpelled hw)).past hr (run_next hr) ht

theorem keywordForm_accountsAt {k : Keyword} {s : State} {us : List Token}
    (hs : s.rest.length < n + 1) (hw : s.WellSpelled) (hr : s.rest = opener :: us)
    (hk : opener.kind = .keyword k) :
    AccountsAt [] (keywordForm nested k opener) always Form.leaves s := by
  have hled {p : Token → Parser Form} (hplain : (TokenKind.keyword k).isPlain = true)
      (hp : ∀ t, Accounts n [] (p t) never Form.leaves) :
      AccountsAt [] (led p) always Form.leaves s :=
    led_accountsAt hp hs hw hr (by rw [hk]; exact hplain)
  cases k with
  | SUBROUTINE => exact hled rfl fun _ => subroutine_accounts
  | END => exact endUnit_accountsAt hs hw hr hk
  | DIM | DIMENSION => exact hled rfl fun _ => dim_accounts
  | COMMON | COM => exact hled rfl fun _ => common_accounts
  | EQUATE | EQU => exact hled rfl fun _ => equate_accounts
  | MAT => exact hled rfl fun _ => mat_accounts
  | IF => exact hled rfl (ifThen_accounts hn)
  | BEGIN => exact hled rfl (beginCase_accounts hn)
  | FOR => exact hled rfl (forNext_accounts hn)
  | LOOP => exact hled rfl (loopRepeat_accounts hn)
  | GOTO | GOSUB => exact hled rfl fun _ => jump_accounts _
  | GO => exact hled rfl fun _ => go_accounts
  | ON => exact hled rfl fun _ => jumpOn_accounts
  | RETURN => exact hled rfl fun _ => returnTo_accounts
  | PRINT => exact hled rfl fun _ => print_accounts
  | CRT => exact hled rfl fun _ => crt_accounts
  | INPUT => exact hled rfl (input_accounts hn)
  | INPUTTRAP => exact hled rfl fun _ => inputTrap_accounts
  | DATA => exact hled rfl fun _ => data_accounts
  | PRINTER | BREAK | ECHO => exact hled rfl fun _ => switch_accounts _
  | OPEN => exact hled rfl (openFile_accounts hn)
  | READ | READU | READV | READVU => exact hled rfl fun t => read_accounts hn t _
  | WRITE | WRITEU | WRITEV | WRITEVU => exact hled rfl fun _ => write_accounts hn _
  | DELETE => exact hled rfl (delete_accounts hn)
  | READNEXT | READT | PROCREAD => exact hled rfl fun t => receive_accounts hn t _
  | WRITET => exact hled rfl fun _ => writeTape_accounts
  | SELECT => exact hled rfl fun _ => select_accounts
  | LOCK => exact hled rfl (lock_accounts hn)
  | CLEARFILE => exact hled rfl fun _ => clearFile_accounts hn
  | MATREAD | MATREADU => exact hled rfl fun t => matRead_accounts hn t _
  | MATWRITE | MATWRITEU => exact hled rfl fun _ => matWrite_accounts hn _
  | LOCATE => exact hled rfl (locate_accounts hn)
  | EXECUTE => exact hled rfl fun _ => execute_accounts
  | CALL => exact hled rfl fun _ => call_accounts
  | INPUTERR | INPUTNULL | PROMPT | HEADING | FOOTING | UNLOCK | PROCWRITE | WEOF | CHAIN | ENTER
  | PRECISION => exact hled rfl fun _ => operandOf_accounts _
  | STOP | ABORT | PAGE | RELEASE | REWIND | SLEEP => exact hled rfl fun _ => optionalOf_accounts _
  | RQM | NULL | CLEAR => exact hled rfl fun _ => Accounts.give (by simp) rfl
  | NEXT | REPEAT | WHILE | UNTIL | ELSE | CASE => exact strayTerminator_accounts s hs hw
  | _ => exact assignmentOrExpression_accounts opener s hs hw

theorem form_accountsAt {s : State} {us : List Token} (hs : s.rest.length < n + 1)
    (hw : s.WellSpelled) (hr : s.rest = opener :: us) :
    AccountsAt [] (form nested opener) always Form.leaves s := by
  unfold form
  cases hk : opener.kind with
  | keyword k => exact keywordForm_accountsAt hn opener hs hw hr hk
  | _ => exact assignmentOrExpression_accounts opener s hs hw

theorem statementStep_accounts :
    Accounts (n + 1) [] (statementStep nested) always Statement.leaves := by
  refine Accounts.look fun s hs hw => ?_
  cases hr : s.rest with
  | nil => exact expected_accounts s hs hw
  | cons t us =>
    refine (form_accountsAt hn t hs hw hr).bind hw fun form s₁ _ _ _ => ?_
    exact AccountsAt.look (AccountsAt.give (by simp) rfl)

end Nested

/-- Every statement accounts for its tokens. -/
theorem statement_accounts : Accounts n [] statement always Statement.leaves :=
  Accounts.knot (fun _ _ hn _ => statementStep_accounts (hn ())) ()

end PickSyntax.Grammar
