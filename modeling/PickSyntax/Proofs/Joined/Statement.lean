import PickSyntax.Proofs.Joined.Block

/-!
# Statements across an end

The remaining statements that hold clauses, and the choice of a form by the first token. Only
here the flags of the token next may be unknown: nothing of the statement has been read yet,
and no form depends on them.
-/
namespace PickSyntax.Grammar

open PickSyntax.Parser PickSyntax.Parser.Seam

variable {m : Seam} {known : Bool} {n : Nat} {s S : State} {opener opener' : Token}

section Statements
variable {st st' : Parser Statement} [Onward st] [Onward st']
variable (hst : m.Alike false n st st' m.Same)
include hst

-- The statement is long, and so are the instances for what follows each of its steps.
set_option synthInstance.maxSize 1024 in
theorem inputAt_alike (hs : s.rest.length < n) (hl : m.Lock true s S) (hr : s.rest ≠ [])
    (ho : m.Like opener opener') :
    m.Outcome false true m.Same (fun _ => False) s ((inputAt st opener).run s)
      ((inputAt st' opener').run S) := by
  obtain ⟨t, ts, hr⟩ := List.exists_cons_of_ne_nil hr
  have hts : (s.past t ts).rest.length < n := by
    rw [hr] at hs
    exact Nat.lt_of_succ_lt hs
  refine .skipOne hl hr fun u us _ _ _ hp => ?_
  refine (Alike.bind (Alike.requireSymbol (y := .leftParen) (by decide)) fun _ _ _ => ?_) _ _ hts hp
  refine expression_alike.bind fun _ _ _ => (Alike.requireSymbol (y := .comma) (by decide)).bind
    fun _ _ _ => ?_
  refine expression_alike.bind fun _ _ _ => (Alike.requireSymbol (y := .rightParen) (by decide)).bind
    fun _ _ _ => ?_
  refine (Alike.acceptSymbol (y := .comma) (by decide)).bind fun _ _ _ => Alike.name.bind fun _ _ _ => ?_
  refine inputLength_alike.bind fun _ _ _ s S hs hl => .look ?_
  refine ((clause?_alike hst (owner_same (hl.since ho.start))).bind fun _ _ _ => .pure ?_) s S hs hl
  simp_all [Same, relocate]

theorem input_alike (ho : m.Like opener opener') :
    m.Alike false n (input st opener) (input st' opener') m.Same := by
  intro s S hs hl
  refine .ite (hl.isAtOnLine (by simp)) (fun h => ?_) fun _ => ?_
  · obtain ⟨t, ts, hr, -, -⟩ := State.rest_of_isAtOnLine h
    exact inputAt_alike hst hs hl (by simp [hr]) ho
  · refine (Alike.name.bind fun _ _ _ => inputLength_alike.bind fun _ _ _ =>
      (clause?_alike hst (owner_same ho.span)).bind fun _ _ _ => .pure ?_) s S hs hl
    simp_all [Same, relocate]

theorem openFile_alike (ho : m.Like opener opener') :
    m.Alike false n (openFile st opener) (openFile st' opener') m.Same := by
  refine expression_alike.andThen (fun a => ?_) (fun a => ?_) fun a a' ha => ?_
  · refine @Onward.bind _ _ _ _ inferInstance fun b => ?_
    cases b <;> infer_instance
  · refine @Onward.bind _ _ _ _ inferInstance fun b => ?_
    cases b <;> infer_instance
  refine expression_alike.afterComma?.andThen (fun b => by cases b <;> infer_instance)
    (fun b => by cases b <;> infer_instance) fun b b' hb => ?_
  obtain ⟨rfl, rfl⟩ | ⟨b, b', rfl, rfl, hb⟩ := hb.option
  · exact Alike.name.afterKeyword?.bind fun _ _ _ => (onErrorClause_alike hst).bind fun _ _ _ =>
      (requiredClause_alike hst (owner_same ho.span)).bind fun _ _ _ =>
        .pure (by simp_all [Same, relocate])
  · exact Alike.name.afterKeyword?.bind fun _ _ _ => (onErrorClause_alike hst).bind fun _ _ _ =>
      (requiredClause_alike hst (owner_same ho.span)).bind fun _ _ _ =>
        .pure (by simp_all [Same, relocate])

theorem read_alike (mode : RecordMode) (ho : m.Like opener opener') :
    m.Alike false n (read st mode opener) (read st' mode opener') m.Same :=
  Alike.name.bind fun _ _ _ => Alike.requireKeyword.bind fun _ _ _ =>
    (recordPath_alike _).bind fun _ _ _ => (onErrorClause_alike hst).bind fun _ _ _ =>
      (lockedClause_alike hst).bind fun _ _ _ => (clause?_alike hst (owner_same ho.span)).bind
        fun _ _ _ => .pure (by simp_all [Same, relocate])

theorem write_alike (mode : RecordMode) :
    m.Alike false n (write st mode) (write st' mode) m.Same :=
  expression_alike.bind fun _ _ _ => destination_alike.bind fun _ _ _ =>
    (recordPath_alike _).bind fun _ _ _ => (onErrorClause_alike hst).bind fun _ _ _ =>
      .pure (by simp_all [Same, relocate])

theorem delete_alike (ho : m.Like opener opener') :
    m.Alike false n (delete st opener) (delete st' opener') m.Same :=
  (recordPath_alike _).bind fun _ _ _ => (onErrorClause_alike hst).bind fun _ _ _ =>
    (clause?_alike hst (owner_same ho.span)).bind fun _ _ _ => .pure (by simp_all [Same, relocate])

theorem receive_alike (feed : Feed) (ho : m.Like opener opener') :
    m.Alike false n (receive st feed opener) (receive st' feed opener') m.Same :=
  Alike.name.bind fun _ _ _ => (clause?_alike hst (owner_same ho.span)).bind fun _ _ _ =>
    .pure (by simp_all [Same, relocate])

theorem lock_alike (ho : m.Like opener opener') :
    m.Alike false n (lock st opener) (lock st' opener') m.Same :=
  expression_alike.bind fun _ _ _ => (lockedClause_alike hst).bind fun _ _ _ =>
    (clause?_alike hst (owner_same ho.span)).bind fun _ _ _ => .pure (by simp_all [Same, relocate])

theorem clearFile_alike : m.Alike false n (clearFile st) (clearFile st') m.Same :=
  expression_alike.bind fun _ _ _ => (onErrorClause_alike hst).bind fun _ _ _ =>
    .pure (by simp_all [Same, relocate])

theorem matRead_alike (locking : Bool) (ho : m.Like opener opener') :
    m.Alike false n (matRead st locking opener) (matRead st' locking opener') m.Same :=
  Alike.name.bind fun _ _ _ => Alike.requireKeyword.bind fun _ _ _ =>
    (recordPath_alike _).bind fun _ _ _ => (onErrorClause_alike hst).bind fun _ _ _ =>
      (lockedClause_alike hst).bind fun _ _ _ => (clause?_alike hst (owner_same ho.span)).bind
        fun _ _ _ => .pure (by simp_all [Same, relocate])

theorem matWrite_alike (locking : Bool) :
    m.Alike false n (matWrite st locking) (matWrite st' locking) m.Same :=
  Alike.name.bind fun _ _ _ => destination_alike.bind fun _ _ _ =>
    (recordPath_alike _).bind fun _ _ _ => (onErrorClause_alike hst).bind fun _ _ _ =>
      .pure (by simp_all [Same, relocate])

theorem locate_alike (ho : m.Like opener opener') :
    m.Alike false n (locate st opener) (locate st' opener') m.Same :=
  expression_alike.bind fun _ _ _ => Alike.requireKeyword.bind fun _ _ _ =>
    expression_alike.bind fun _ _ _ => Alike.name.afterKeyword?.bind fun _ _ _ =>
      (clause?_alike hst (owner_same ho.span)).bind fun _ _ _ =>
        .pure (by simp_all [Same, relocate])

omit hst [Onward st] [Onward st'] in
theorem strayTerminator_outcome (hl : m.Lock known s S) (ho : m.Like opener opener')
    (word owner : String) : m.Outcome false known m.Same (fun _ => False) s
      ((strayTerminator word owner opener.span).run s)
      ((strayTerminator word owner opener'.span).run S) := by
  refine .fail (hl.addFault ?_) id fun _ => rfl
  simpa [Same, relocate, Fault.relocate] using ho.span

omit hst [Onward st] [Onward st'] in
theorem endUnit_outcome (hl : m.Lock known s S) {t : Token} {ts : List Token} (hr : s.rest = t :: ts)
    (hk : t.kind = .keyword .END) (ho : m.Like opener opener') :
    m.Outcome false known m.Same (fun _ => False) s ((endUnit opener).run s)
      ((endUnit opener').run S) := by
  refine .look (.ite hl.atLoneEnd (fun _ => .skipOne hl hr fun _ _ _ _ _ hp => .pure hp rfl)
    fun h => ?_)
  have hcase : s.isBeforeKeyword .CASE = true := by
    simpa [State.atLoneEnd, State.isAt, State.kind?, hr, hk] using h
  obtain ⟨t', ts', rfl, -⟩ := rest_of_isBeforeKeyword hr hcase
  obtain ⟨u, us, hR, -, -, hp⟩ := hl.front hr
  obtain ⟨u', us', hR', hu', -, -⟩ := hp.front (show _ = t' :: ts' from rfl)
  have hR' : us = u' :: us' := hR'
  rw [hr, hR, hR']
  have hspan := ho.span.merge hu'.span
  refine .report hl (by simpa [Same, relocate, Fault.relocate] using hspan) fun s' S' hs' hl' => ?_
  exact .skip hl' Nat.two_pos (by simp [hs', hr]) fun _ _ _ hl =>
    Alike.fail _ _ (Nat.lt_succ_self _) hl

omit hst [Onward st] [Onward st'] in
theorem isAssignable_eq {e e' : Expr} (h : m.Same e e') : e.isAssignable = e'.isAssignable := by
  have hloc (f : Nat → Nat) (e : Expr) : (e.relocate f).isAssignable = e.isAssignable := by
    cases e <;> simp [Expr.isAssignable]
  rw [← hloc m.left e, ← hloc m.right e']
  exact congrArg Expr.isAssignable h

omit hst [Onward st] [Onward st'] in
theorem assignmentOrExpression_outcome (hl : m.Lock known s S) (ho : m.Like opener opener') :
    m.Outcome false known m.Same (fun _ => False) s ((assignmentOrExpression opener).run s)
      ((assignmentOrExpression opener').run S) := by
  unfold assignmentOrExpression
  rw [← ho.kind]
  refine .ite rfl (fun _ => .expected hl) fun _ => .ite rfl (fun _ => ?_) fun _ => ?_
  · refine (expressionAt_outcome 0 hl).loosen.bind (fun e e' _ _ _ he hl' => .pure hl' ?_) fun _ _ h => h.elim
    simpa [Same, relocate] using he
  · have hprimary := primary_alike (n := s.rest.length) expressionAt_alike
      (fun _ => .refl) (fun _ => .refl) (Nat.le_refl _) hl
    refine hprimary.loosen.bind (fun e e' s' S' _ he hl' => .look ?_) fun _ _ h => h.elim
    refine .ite (by rw [isAssignable_eq he, hl'.isAtOnLine (k := .symbol .equals) (by simp)])
      (fun h => ?_) fun _ => ?_
    · simp only [Bool.and_eq_true] at h
      obtain ⟨t, ts, hr, -, -⟩ := State.rest_of_isAtOnLine h.2
      refine .skipOne hl' hr fun _ _ _ _ _ hp => ?_
      refine (expressionAt_outcome 0 hp).loosen.bind (fun _ _ _ _ _ hv hl => .pure hl ?_) fun _ _ h => h.elim
      simp_all [Same, relocate]
    · refine ((chain_alike expressionAt_alike he).loosen.bind fun _ _ hv => .pure ?_) s' S'
        (Nat.lt_succ_self _) hl'
      simpa [Same, relocate] using hv

theorem keywordForm_outcome {k : Keyword} {ts : List Token} (hs : s.rest.length ≤ n)
    (hl : m.Lock known s S) (hr : s.rest = opener :: ts) (hk : opener.kind = .keyword k)
    (ho : m.Like opener opener') :
    m.Outcome false known m.Same (fun _ => False) s ((keywordForm st k opener).run s)
      ((keywordForm st' k opener').run S) := by
  have hled {p q : Token → Parser Form} (h : ∀ {u}, m.Like opener u →
      m.Alike false n (p opener) (q u) m.Same) :
      m.Outcome false known m.Same (fun _ => False) s ((led p).run s) ((led q).run S) :=
    .next hl hr fun u us _ hu _ hp => h hu _ _ (by rwa [hr] at hs) hp
  cases k with
  | SUBROUTINE => exact hled fun _ => subroutine_alike
  | END => exact endUnit_outcome hl hr hk ho
  | DIM | DIMENSION => exact hled fun _ => dim_alike
  | COMMON | COM => exact hled fun _ => common_alike
  | EQUATE | EQU => exact hled fun _ => equate_alike
  | MAT => exact hled fun _ => mat_alike
  | IF => exact hled (ifThen_alike hst)
  | BEGIN => exact hled (beginCase_alike hst)
  | FOR => exact hled (forNext_alike hst)
  | LOOP => exact hled (loopRepeat_alike hst)
  | GOTO | GOSUB => exact hled fun _ => jump_alike _
  | GO => exact hled fun _ => go_alike
  | ON => exact hled fun _ => jumpOn_alike
  | RETURN => exact hled fun _ => returnTo_alike
  | PRINT => exact hled fun _ => print_alike
  | CRT => exact hled fun _ => crt_alike
  | INPUT => exact hled (input_alike hst)
  | INPUTTRAP => exact hled fun _ => inputTrap_alike
  | DATA => exact hled fun _ => data_alike
  | PRINTER | BREAK | ECHO => exact hled fun _ => switch_alike _
  | OPEN => exact hled (openFile_alike hst)
  | READ | READU | READV | READVU => exact hled (read_alike hst _)
  | WRITE | WRITEU | WRITEV | WRITEVU => exact hled fun _ => write_alike hst _
  | DELETE => exact hled (delete_alike hst)
  | READNEXT | READT | PROCREAD => exact hled (receive_alike hst _)
  | WRITET => exact hled fun _ => writeTape_alike
  | SELECT => exact hled fun _ => select_alike
  | LOCK => exact hled (lock_alike hst)
  | CLEARFILE => exact hled fun _ => clearFile_alike hst
  | MATREAD | MATREADU => exact hled (matRead_alike hst _)
  | MATWRITE | MATWRITEU => exact hled fun _ => matWrite_alike hst _
  | LOCATE => exact hled (locate_alike hst)
  | EXECUTE => exact hled fun _ => execute_alike
  | CALL => exact hled fun _ => call_alike
  | INPUTERR | INPUTNULL | PROMPT | HEADING | FOOTING | UNLOCK | PROCWRITE | WEOF | CHAIN | ENTER
  | PRECISION => exact hled fun _ => operandOf_alike _
  | STOP | ABORT | PAGE | RELEASE | REWIND | SLEEP => exact hled fun _ => optionalOf_alike _
  | RQM | NULL | CLEAR => exact hled fun _ => .pure rfl
  | NEXT | REPEAT | WHILE | UNTIL | ELSE | CASE => exact strayTerminator_outcome hl ho _ _
  | _ => exact assignmentOrExpression_outcome hl ho

theorem form_outcome {ts : List Token} (hs : s.rest.length ≤ n) (hl : m.Lock known s S)
    (hr : s.rest = opener :: ts) (ho : m.Like opener opener') :
    m.Outcome false known m.Same (fun _ => False) s ((form st opener).run s)
      ((form st' opener').run S) := by
  unfold form
  rw [← ho.kind]
  cases hk : opener.kind with
  | keyword k => exact keywordForm_outcome hst hs hl hr hk ho
  | _ => exact assignmentOrExpression_outcome hl ho

theorem statementStep_outcome (hs : s.rest.length ≤ n) (hl : m.Lock known s S) :
    m.Outcome false known m.Same (fun _ => False) s ((statementStep st).run s)
      ((statementStep st').run S) := by
  by_cases hc : m.cut ∧ s.rest = []
  · refine .cutoff hc.1 ?_ (by simp)
    simp [statementStep, run_bind, hc.2, expected, reportExpected, report]
  refine .look ?_
  obtain ⟨hr, hR⟩ | ⟨t, ts, u, us, hr, hR, hu, -⟩ := hl.both (not_and.mp hc) <;> rw [hr, hR]
  · exact .expected hl
  · refine (form_outcome hst hs hl hr hu).bind (fun f f' s' S' _ hf hl' => .look (.pure hl' ?_)) fun _ _ h => h.elim
    have hsince := hl'.since hu.start
    simp_all [Same, relocate]

end Statements

/-- Statements agree from any two states that correspond. -/
theorem statement_outcome (hl : m.Lock known s S) :
    m.Outcome false known m.Same (fun _ => False) s (statement.run s) (statement.run S) := by
  refine Outcome.knot (fun nested h i => @statementStep_onward _ (h ())) ?_ () hl
  intro n nested nested' hon hon' _ _ hn known i s S hs hl
  have := hon ()
  have := hon' ()
  exact statementStep_outcome (hn ()) hs hl

end PickSyntax.Grammar
