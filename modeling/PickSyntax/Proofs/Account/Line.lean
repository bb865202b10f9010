import PickSyntax.Grammar.Exchange
import PickSyntax.Proofs.Expression.Climbing
import PickSyntax.Proofs.Parser.Accounting

/-!
# Accounts of one-line forms

The forms that hold no statement again: declarations, jumps, print lists and the verbs with
operands. Each accounts for its tokens by the rules of its parts, in the order in which the
parts are written.
-/
namespace PickSyntax.Grammar

open PickSyntax.Parser

variable {n : Nat} {acc : List Leaf}

theorem Climbed.accounts {level : Nat} {ts : List Token} {e : Expr} {s : State}
    (h : Climbed level ts e s) (hw : ∀ t ∈ ts, t.WellSpelled) :
    (always e = true → ts ≠ []) ∧ e.leaves = [] ++ leavesOf ts ∧ Settled ts := by
  obtain ⟨hl, hs⟩ := h.spells.leaves hw
  exact ⟨fun _ => h.spells.ne_nil (by simp), by simpa using hl, hs⟩

theorem expressionAt_accounts (level : Nat) :
    Accounts n [] (expressionAt level) always Expr.leaves :=
  fun s _ hw => (expressionAt_meets level s).accountsAt hw fun _ _ _ _ hts h => h.accounts hts

theorem expression_accounts : Accounts n [] expression always Expr.leaves :=
  expressionAt_accounts 0

theorem expression?_accounts : Accounts n [] expression? never Expr.leaves? := by
  refine Accounts.look fun s hs hw => AccountsAt.ite (fun _ => ?_) fun _ => ?_
  · exact (expression_accounts.andThen fun e => Accounts.give (by simp) rfl) s hs hw
  · exact AccountsAt.give (by simp) rfl

/-- An operand of a list, after a comma. -/
theorem afterComma_expression_accounts :
    Accounts n [] (afterComma? expression) never Expr.leaves? :=
  afterComma_accounts expression_accounts rfl fun _ => rfl

theorem oneOrTwo_accounts : Accounts n [] (oneOrTwo expressionAt) always
    fun es => es.1.leaves ++ Expr.leaves? es.2 := by
  refine (expressionAt_accounts 0).bind fun a => ?_
  refine afterComma_expression_accounts.andThen fun b => Accounts.give (by simp) rfl

theorem arguments_accounts : Accounts n [] (arguments expressionAt) always Expr.leavesAll := by
  intro s _ hw
  refine (arguments_meets (nested_listed fun level s _ => expressionAt_meets level s)
    (Nat.lt_succ_self s.rest.length)).accountsAt hw ?_
  rintro _ args s' - hts ⟨us, closing, rfl, hc, h, -⟩
  obtain ⟨hl, -⟩ := h.leaves fun t ht => hts t (by simp [ht])
  simp [hl, Token.leaves, TokenKind.awaitsOperand, hc]

theorem target_accounts : Accounts n [] target always Target.leaves := by
  refine Accounts.look fun s hs hw => ?_
  cases hr : s.rest with
  | nil => exact expected_accounts s hs hw
  | cons t us =>
    refine AccountsAt.ite (fun h => ?_) fun _ => expected_accounts s hs hw
    refine (Meets.bind (R := fun ts (v : Target) _ => ts = [t] ∧
      v = ⟨t.text, t.kind == .number, t.span⟩)
      (Meets.skipOne hr (Meets.pure ⟨rfl, rfl⟩))).accountsAt hw ?_
    rintro _ _ s' - hts ⟨rfl, rfl⟩
    simp only [Bool.and_eq_true, Bool.or_eq_true, beq_iff_eq] at h
    obtain ⟨-, hk | hk⟩ := h
    · simp [Token.leaves, hk, TokenKind.awaitsOperand]
    · have hl := (hts t (by simp)).nameLeaves (TokenKind.isWord_of_isName hk)
      have hnum : t.kind ≠ .number := by
        intro he
        rw [he] at hk
        cases hk
      simp [hl, hnum, TokenKind.settled_of_isName hk]

theorem Expr.leavesAll_eq_flatMap (es : List Expr) :
    Expr.leavesAll es = es.flatMap Expr.leaves := by
  induction es with
  | nil => rfl
  | cons e es ih => rw [Expr.leavesAll, ih, List.flatMap_cons]

theorem parameters_accounts : Accounts n [] parameters never (·.flatMap nameLeaves) := by
  refine acceptOpening_accounts ?_ (Accounts.give rfl rfl)
  refine (acceptAnywhere_accounts rfl).bind fun b => ?_
  cases b with
  | true => exact Accounts.give rfl rfl
  | false =>
    refine (commaList_accounts name_accounts).andThen fun names => ?_
    exact (require_accounts rfl).bind fun _ => Accounts.give (by simp) rfl

theorem subroutine_accounts : Accounts n [] subroutine never Form.leaves := by
  refine Accounts.look fun s hs hw => AccountsAt.ite (fun _ => ?_) fun _ => ?_
  · refine (name_accounts.andThen fun unit => parameters_accounts.andThen fun params => ?_) s hs hw
    exact Accounts.give (by simp) rfl
  · exact AccountsAt.give (by simp) rfl

theorem arrayBounds_accounts : Accounts n [] arrayBounds never ArrayBounds.leaves := by
  refine Accounts.look fun s hs hw => ?_
  refine (name_accounts.andThen fun array => requireOpening_accounts fun _ => ?_) s hs hw
  refine oneOrTwo_accounts.bind fun bounds => (require_accounts rfl).andThen fun _ => ?_
  refine Accounts.look fun s hs hw => AccountsAt.give ?_ rfl
  simp

theorem dim_accounts : Accounts n [] dim never Form.leaves :=
  (commaList_accounts arrayBounds_accounts).andThen fun arrays =>
    Accounts.give (by simp) rfl

theorem commonBlock_accounts : Accounts n [] commonBlock never nameLeaves? := by
  refine (accept_accounts rfl).andThen fun b => Accounts.ite (fun _ => ?_) fun _ => ?_
  · refine name_accounts.andThen fun block => (require_accounts rfl).andThen fun _ => ?_
    exact Accounts.give (by simp) rfl
  · exact Accounts.give (by simp) rfl

theorem common_accounts : Accounts n [] common never Form.leaves := by
  refine commonBlock_accounts.andThen fun block => ?_
  refine (commaList_accounts name_accounts).andThen fun names => ?_
  exact Accounts.give (by simp) rfl

theorem equateSense_accounts : Accounts n [] equateSense never leafless := by
  refine (accept_accounts rfl).andThen fun b => Accounts.ite (fun _ => ?_) fun _ => ?_
  · exact Accounts.give rfl rfl
  · refine (accept_accounts rfl).andThen fun b => Accounts.ite (fun _ => ?_) fun _ => ?_
    · exact Accounts.give rfl rfl
    · exact expected_accounts

theorem equate_accounts : Accounts n [] equate never Form.leaves := by
  refine name_accounts.andThen fun constant => equateSense_accounts.andThen fun sense => ?_
  exact expression_accounts.andThen fun value => Accounts.give (by simp) rfl

theorem mat_accounts : Accounts n [] mat never Form.leaves := by
  refine name_accounts.andThen fun array => (require_accounts rfl).andThen fun _ => ?_
  exact expression_accounts.andThen fun value => Accounts.give (by simp) rfl

theorem goKind_accounts : Accounts n [] goKind never leafless := by
  refine (accept_accounts rfl).andThen fun b => Accounts.ite (fun _ => ?_) fun _ => ?_
  · exact Accounts.give rfl rfl
  · exact (accept_accounts rfl).andThen fun _ => Accounts.give rfl rfl

theorem jump_accounts (kind : JumpKind) : Accounts n [] (jump kind) never Form.leaves :=
  target_accounts.andThen fun t => Accounts.give (by simp) rfl

theorem go_accounts : Accounts n [] go never Form.leaves :=
  goKind_accounts.andThen fun kind => jump_accounts kind

theorem jumpOnKind_accounts : Accounts n [] jumpOnKind never leafless := by
  refine (accept_accounts rfl).andThen fun b => Accounts.ite (fun _ => ?_) fun _ => ?_
  · exact Accounts.give rfl rfl
  refine (accept_accounts rfl).andThen fun b => Accounts.ite (fun _ => ?_) fun _ => ?_
  · exact Accounts.give rfl rfl
  refine (accept_accounts rfl).andThen fun b => Accounts.ite (fun _ => ?_) fun _ => ?_
  · exact goKind_accounts
  · exact expected_accounts

theorem jumpOn_accounts : Accounts n [] jumpOn never Form.leaves := by
  refine expression_accounts.andThen fun selector => jumpOnKind_accounts.andThen fun kind => ?_
  refine (commaList_accounts target_accounts).andThen fun targets => ?_
  exact Accounts.give (by simp) rfl

theorem returnTo_accounts : Accounts n [] returnTo never Form.leaves := by
  have ht : Accounts n [] (afterKeyword? .TO target) never (·.toList.flatMap Target.leaves) :=
    afterKeyword_accounts target_accounts rfl rfl fun _ => by simp
  exact ht.andThen fun t => Accounts.give (by simp) rfl

theorem entrySeparator_accounts : Accounts n [] entrySeparator never leafless := by
  refine (accept_accounts rfl).andThen fun b => Accounts.ite (fun _ => ?_) fun _ => ?_
  · exact Accounts.give rfl rfl
  refine (accept_accounts rfl).andThen fun b => Accounts.ite (fun _ => ?_) fun _ => ?_
  · exact Accounts.give rfl rfl
  · exact Accounts.give rfl rfl

/-- The leaves of a print list. -/
def entryLeaves (items : List PrintEntry) : List Leaf := items.flatMap fun i => i.expr.leaves

theorem printStep_accounts (items : List PrintEntry) :
    Accounts n (entryLeaves items) (printStep items) Step.isMore
      (Step.leaves entryLeaves entryLeaves) := by
  refine Accounts.look fun s hs hw => AccountsAt.ite (fun _ => ?_) fun _ => ?_
  · refine (expression_accounts.bind fun e => entrySeparator_accounts.andThen fun sep => ?_) s hs hw
    cases sep <;> exact Accounts.give (by simp [Step.leaves, entryLeaves]) rfl
  · exact AccountsAt.give (by simp [Step.leaves]) rfl

theorem printList_accounts : Accounts n [] printList never entryLeaves :=
  Accounts.loop (I := fun _ => True) (fun items _ => printStep_accounts items)
    (fun _ _ _ _ _ _ => trivial) (v := []) trivial

theorem print_accounts : Accounts n [] print never Form.leaves := by
  have hon : Accounts n [] (afterKeyword? .ON expression) never Expr.leaves? :=
    afterKeyword_accounts expression_accounts rfl rfl fun _ => rfl
  refine hon.andThen fun channel => printList_accounts.andThen fun items => ?_
  exact Accounts.give (by simp [entryLeaves]) rfl

theorem crt_accounts : Accounts n [] crt never Form.leaves :=
  printList_accounts.andThen fun items => Accounts.give (by simp [entryLeaves]) rfl

theorem inputLength_accounts :
    Accounts n [] inputLength never fun l => Expr.leaves? l.1 := by
  refine afterComma_expression_accounts.andThen fun length => ?_
  exact (accept_accounts rfl).andThen fun stay => Accounts.give (by simp) rfl

theorem data_accounts : Accounts n [] data never Form.leaves :=
  (commaList_accounts expression_accounts).andThen fun values =>
    Accounts.give (by simp [Expr.leavesAll_eq_flatMap]) rfl

theorem switch_accounts (device : Device) : Accounts n [] (switch device) never Form.leaves := by
  refine (accept_accounts rfl).andThen fun b => Accounts.ite (fun _ => ?_) fun _ => ?_
  · exact Accounts.give (by simp) rfl
  refine (accept_accounts rfl).andThen fun b => Accounts.ite (fun _ => ?_) fun _ => ?_
  · exact Accounts.give (by simp) rfl
  · exact expected_accounts

theorem inputTrap_accounts : Accounts n [] inputTrap never Form.leaves := by
  have ht : Accounts n [] (afterComma? target) never (·.toList.flatMap Target.leaves) :=
    afterComma_accounts target_accounts rfl fun _ => by simp
  refine expression_accounts.andThen fun keys => ht.andThen fun t => ?_
  exact Accounts.give (by simp) rfl

/-- Whichever operand is taken for the file, the order of the leaves is that of writing. -/
theorem recordPath_accounts (ofAttr : Bool) :
    Accounts n [] (recordPath ofAttr) never RecordPath.leaves := by
  refine expression_accounts.andThen fun a => afterComma_expression_accounts.andThen fun b => ?_
  cases b with
  | none => exact Accounts.give (by simp) rfl
  | some b =>
    refine afterComma_expression_accounts.andThen fun c => ?_
    cases c with
    | none => cases ofAttr <;> exact Accounts.give (by simp) rfl
    | some c => exact Accounts.give (by simp) rfl

theorem destination_accounts : Accounts n [] destination never leafless := by
  refine (accept_accounts rfl).andThen fun b => Accounts.ite (fun _ => ?_) fun _ => ?_
  · exact Accounts.give rfl rfl
  refine (accept_accounts rfl).andThen fun b => Accounts.ite (fun _ => ?_) fun _ => ?_
  · exact Accounts.give rfl rfl
  · exact expected_accounts

theorem writeTape_accounts : Accounts n [] writeTape never Form.leaves := by
  refine expression_accounts.andThen fun value => destination_accounts.andThen fun _ => ?_
  exact expression_accounts.andThen fun device => Accounts.give (by simp) rfl

/-- A name that a keyword introduces. -/
theorem afterKeyword_name_accounts {k : Keyword} {d : String}
    (hk : (TokenKind.keyword k).isPlain = true) :
    Accounts n [] (afterKeyword? k (name d)) never nameLeaves? :=
  afterKeyword_accounts name_accounts hk rfl fun _ => rfl

theorem select_accounts : Accounts n [] select never Form.leaves := by
  refine expression?_accounts.andThen fun source => ?_
  refine (afterKeyword_name_accounts rfl).andThen fun list => ?_
  exact Accounts.give (by simp) rfl

theorem execute_accounts : Accounts n [] execute never Form.leaves := by
  refine expression_accounts.andThen fun command => ?_
  refine (afterKeyword_name_accounts rfl).andThen fun capturing => ?_
  refine (afterKeyword_name_accounts rfl).andThen fun returning => ?_
  exact Accounts.give (by simp) rfl

theorem calledName_accounts : Accounts n [] calledName never
    fun c => if c.2 then systemLeaves c.1 else nameLeaves c.1 := by
  refine Accounts.look fun s hs hw => AccountsAt.ite (fun h => ?_) fun _ => ?_
  · obtain ⟨t, us, hr, hk, -⟩ := State.rest_of_isAtOnLine h
    refine (Meets.bind (R := fun ts (v : String × Bool) _ => ts = [t] ∧
      v = (systemName t.text, true)) (Meets.next hr (Meets.pure ⟨rfl, rfl⟩))).accountsAt hw ?_
    rintro _ _ s' - hts ⟨rfl, rfl⟩
    have := (hts t (by simp)).systemLeaves hk
    simp [this, hk, TokenKind.awaitsOperand]
  · exact (name_accounts.andThen fun callee => Accounts.give (by simp) rfl) s hs hw

theorem callArguments_accounts : Accounts n [] callArguments never Expr.leavesAll :=
  acceptOpening_accounts arguments_accounts (Accounts.give rfl rfl)

theorem call_accounts : Accounts n [] call never Form.leaves := by
  refine calledName_accounts.andThen fun callee => callArguments_accounts.andThen fun args => ?_
  exact Accounts.give (by simp) rfl

theorem operandOf_accounts (verb : OperandVerb) :
    Accounts n [] (operandOf verb) never Form.leaves :=
  expression_accounts.andThen fun value => Accounts.give (by simp) rfl

theorem optionalOf_accounts (verb : OptionalVerb) :
    Accounts n [] (optionalOf verb) never Form.leaves :=
  expression?_accounts.andThen fun value => Accounts.give (by simp) rfl

end PickSyntax.Grammar
