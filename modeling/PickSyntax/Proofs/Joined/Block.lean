import PickSyntax.Proofs.Joined.Body

/-!
# Clauses and block statements across an end

A clause that reaches the end of the tokens reads as the beginning of a block there, and the
block has no terminator. So the first run records a fault wherever the second one could find
a statement or a terminator behind the end.
-/
namespace PickSyntax.Grammar

open PickSyntax.Parser PickSyntax.Parser.Seam

variable {m : Seam} {n : Nat} {s S : State} {owner owner' : Owner} {opener opener' : Token}

instance : Located Owner := ⟨fun f owner => { owner with span := owner.span.relocate f }⟩

instance : Located ClauseLayout := ⟨fun _ layout => layout⟩

theorem owner_same {d : String} {a b : Span} (h : m.Same a b) : m.Same (⟨d, a⟩ : Owner) ⟨d, b⟩ := by
  simpa [Same, relocate] using h

theorem reportUnclosed_alike {d : String} (ho : m.Same owner owner') :
    m.Alike false n (reportUnclosed owner d) (reportUnclosed owner' d) Eq := by
  refine Alike.report ?_
  obtain ⟨hname, hspan⟩ := Owner.mk.inj ho
  simp_all [Same, relocate, Fault.relocate]

section Statements
variable {st st' : Parser Statement} [Onward st] [Onward st']
variable (hst : m.Alike false n st st' m.Same)
include hst

omit [Onward st] [Onward st'] in
theorem clauseStatement_alike :
    m.Alike false n (clauseStatement st) (clauseStatement st') m.Same := by
  intro s S hs hl
  by_cases hc : m.cut ∧ s.rest = []
  · refine .cutoff hc.1 ?_ (by simp)
    simp [clauseStatement, run_bind, State.onLine, hc.2, expected, reportExpected, report]
  · exact .ite (hl.onLine (not_and.mp hc))
      (fun _ => .beginStatement (hst _ _ hs hl.beginStatement)) fun _ => .expected hl

omit [Onward st'] in
theorem onErrorClause_alike : m.Alike false n (onErrorClause st) (onErrorClause st') m.Same := by
  intro s S hs hl
  have hwords : (s.isAtOnLine (.keyword .ON) && s.isBeforeKeyword .ERROR) =
      (S.isAtOnLine (.keyword .ON) && S.isBeforeKeyword .ERROR) := by
    rw [← hl.isAtOnLine (k := .keyword .ON) (by simp)]
    cases h : s.isAtOnLine (.keyword .ON) with
    | false => rfl
    | true =>
      obtain ⟨t, ts, hr, -, -⟩ := State.rest_of_isAtOnLine h
      rw [hl.isBeforeKeyword (by simp [hr])]
  refine .ite hwords (fun h => ?_) fun _ => .pure hl .none
  simp only [Bool.and_eq_true] at h
  obtain ⟨t, ts, hr, -, -⟩ := State.rest_of_isAtOnLine h.1
  obtain ⟨t', ts', rfl, -⟩ := rest_of_isBeforeKeyword hr h.2
  refine .skip hl Nat.two_pos (by simp [hr]) fun s' S' hlt hl' => ?_
  exact ((clauseStatement_alike hst).bind fun _ _ hv => .pure (.some hv)) s' S'
    (Nat.lt_trans hlt hs) hl'

theorem lockedClause_alike : m.Alike false n (lockedClause st) (lockedClause st') m.Same :=
  (clauseStatement_alike hst).afterKeyword?

theorem elseBlock_alike (ho : m.Same owner owner') :
    m.Alike false n (elseBlock st owner) (elseBlock st' owner') m.Same := by
  intro s S hs hl
  refine body_then hst .elseBody hs hl (fun is is' stop s' S' his hs' hrest hl' => ?_)
    fun _ _ => .report
  cases stop with
  | closed =>
    obtain ⟨t, ts, hr⟩ := List.exists_cons_of_ne_nil (hrest rfl)
    exact .skipOne hl' hr fun _ _ _ _ _ hp => .pure hp his
  | interrupted => exact ((reportUnclosed_alike ho).bind fun _ _ _ => .pure his) s' S' hs' hl'
  | exhausted => exact ((reportUnclosed_alike ho).bind fun _ _ _ => .pure his) s' S' hs' hl'

omit hst [Onward st] [Onward st'] in
theorem elseBlock_at_end (hr : s.rest = []) :
    s.faults.length < ((elseBlock st owner).run s).2.faults.length := by
  obtain ⟨is, s', hrun, hf⟩ := body_at_end st .elseBody hr
  unfold elseBlock
  rw [run_bind_some hrun, ← hf]
  exact Onward.lt_bind (by simp [closeBlock, reportUnclosed, report])

theorem elseBranch_alike (ho : m.Same owner owner') :
    m.Alike false n (elseBranch st owner) (elseBranch st' owner') m.Same := by
  intro s S hs hl
  by_cases hc : m.cut ∧ s.rest = []
  · refine .cutoff hc.1 ?_ (by simp)
    have hoff : s.onLine = false := by simp [State.onLine, hc.2]
    unfold elseBranch
    rw [run_bind_some (run_look s), hoff]
    exact Onward.lt_bind (elseBlock_at_end hc.2)
  · refine .ite (hl.onLine (not_and.mp hc)) (fun _ => ?_) fun _ => ?_
    · refine ((clauseStatement_alike hst).bind fun _ _ hv => .pure (.pair ?_ rfl)) s S hs hl
      simpa [Same, relocate] using hv
    · exact ((elseBlock_alike hst ho).bind fun _ _ hv => .pure (.pair hv rfl)) s S hs hl

omit hst [Onward st] [Onward st'] in
theorem thenBlock_at_end (hr : s.rest = []) :
    s.faults.length < ((thenBlock st owner).run s).2.faults.length := by
  obtain ⟨is, s', hrun, hf⟩ := body_at_end st .thenBody hr
  unfold thenBlock
  rw [run_bind_some hrun, ← hf]
  exact Onward.lt_bind (by simp [reportUnclosed, report])

theorem thenBlock_alike (ho : m.Same owner owner') :
    m.Alike false n (thenBlock st owner) (thenBlock st' owner') m.Same := by
  intro s S hs hl
  refine body_then hst .thenBody hs hl (fun is is' stop s' S' his hs' hrest hl' => ?_)
    fun _ _ => .report
  cases stop with
  | closed =>
    obtain ⟨t, ts, hr⟩ := List.exists_cons_of_ne_nil (hrest rfl)
    have hts : ts.length < n := by
      rw [hr] at hs'
      exact Nat.lt_of_succ_lt hs'
    refine .look (.ite hl'.atLoneEnd (fun _ => ?_) fun _ => ?_)
    · refine .skipOne hl' hr fun u us _ _ _ hp => ?_
      refine (Alike.acceptKeyword.bind fun _ _ hb => .ite hb ?_ (.pure ?_)) _ _ hts hp
      · exact (elseBranch_alike hst ho).bind fun v w hv => .pure (by simp_all [Same, relocate])
      · simp_all [Same, relocate]
    · refine .skipOne hl' hr fun u us _ _ _ hp => ?_
      refine ((elseBlock_alike hst ho).bind fun v w hv => .pure ?_) _ _ hts hp
      simp_all [Same, relocate]
  | interrupted =>
    refine ((reportUnclosed_alike ho).bind fun _ _ _ => .pure ?_) s' S' hs' hl'
    simp_all [Same, relocate]
  | exhausted =>
    refine ((reportUnclosed_alike ho).bind fun _ _ _ => .pure ?_) s' S' hs' hl'
    simp_all [Same, relocate]

omit hst [Onward st] [Onward st'] in
theorem closeInline_alike {c c' : Clause} (hc : m.Same c c') :
    m.Alike false n (closeInline c) (closeInline c') m.Same := by
  intro s S hs hl
  obtain ⟨thenBody, elseBody, layout⟩ := c
  obtain ⟨thenBody', elseBody', layout'⟩ := c'
  have hlayout : layout = layout' := congrArg Clause.layout hc
  have hawaits : awaitsEnd s = awaitsEnd S := by rw [awaitsEnd, awaitsEnd, hl.blocks]
  refine .look (.ite (by rw [hlayout, hl.atLoneEnd, hawaits]) (fun h => ?_) fun _ => .pure hl hc)
  simp only [Bool.and_eq_true, State.atLoneEnd] at h
  obtain ⟨t, ts, hr, -⟩ := State.rest_of_isAt h.1.2.1
  exact .skipOne hl hr fun _ _ _ _ _ hp => .pure hp (by simp_all [Same, relocate])

theorem thenInline_alike (ho : m.Same owner owner') :
    m.Alike false n (thenInline st owner) (thenInline st' owner') m.Same := by
  refine (clauseStatement_alike hst).bind fun v w hv => ?_
  refine Alike.acceptKeyword.bind fun _ _ hb => .ite hb ?_ (closeInline_alike ?_)
  · refine (elseBranch_alike hst ho).bind fun o o' ho => closeInline_alike ?_
    simp_all [Same, relocate]
  · simp_all [Same, relocate]

theorem clause?_alike (ho : m.Same owner owner') :
    m.Alike false n (clause? st owner) (clause? st' owner') m.Same := by
  refine Alike.acceptKeyword.bind fun _ _ hb => .ite hb (fun s S hs hl => ?_) ?_
  · by_cases hc : m.cut ∧ s.rest = []
    · refine .cutoff hc.1 ?_ (by simp)
      have hoff : s.onLine = false := by simp [State.onLine, hc.2]
      rw [run_bind_some (run_look s), hoff]
      exact Onward.lt_bind (thenBlock_at_end hc.2)
    · refine .ite (hl.onLine (not_and.mp hc)) (fun _ => ?_) fun _ => ?_
      · exact ((thenInline_alike hst ho).bind fun _ _ hv => .pure (.some hv)) s S hs hl
      · exact ((thenBlock_alike hst ho).bind fun _ _ hv => .pure (.some hv)) s S hs hl
  · refine Alike.acceptKeyword.bind fun _ _ hb => .ite hb ?_ (.pure .none)
    refine (elseBranch_alike hst ho).bind fun o o' ho => ?_
    refine (closeInline_alike ?_).bind fun _ _ hv => .pure (.some hv)
    simp_all [Same, relocate]

theorem requiredClause_alike (ho : m.Same owner owner') :
    m.Alike false n (requiredClause st owner) (requiredClause st' owner') m.Same := by
  refine (clause?_alike hst ho).andThen (fun o => by cases o <;> infer_instance)
    (fun o => by cases o <;> infer_instance) fun o o' hc => ?_
  obtain ⟨rfl, rfl⟩ | ⟨c, c', rfl, rfl, hsame⟩ := hc.option
  · intro s S hs hl
    obtain ⟨hname, hspan⟩ := Owner.mk.inj ho
    have hsince := hl.since (congrArg Span.start hspan)
    refine .look ((Alike.report ?_).bind (fun _ _ _ => .fail) s S hs hl)
    simp_all [Same, relocate, Fault.relocate]
  · exact .pure hsame

theorem ifThen_alike (ho : m.Like opener opener') :
    m.Alike false n (ifThen st opener) (ifThen st' opener') m.Same :=
  expression_alike.bind fun _ _ _ => (requiredClause_alike hst (owner_same ho.span)).bind
    fun _ _ _ => .pure (by simp_all [Same, relocate])

omit hst [Onward st] [Onward st'] in
theorem loopGuard_alike (sense : GuardSense) (hs : s.rest.length < n) (hl : m.Lock true s S)
    (hr : s.rest ≠ []) : m.Outcome false true m.Same (fun _ => False) s ((loopGuard sense).run s)
      ((loopGuard sense).run S) := by
  obtain ⟨t, ts, hr⟩ := List.exists_cons_of_ne_nil hr
  refine .skipOne hl hr fun u us _ _ _ hp => ?_
  refine (expression_alike.bind fun _ _ he => .pure ?_) _ _ (Nat.lt_of_succ_lt (hr ▸ hs)) hp
  simpa [Same, relocate, LoopGuard.relocate] using he

omit hst [Onward st] [Onward st'] in
theorem guardSense?_eq (hl : m.Lock true s S) (hr : s.rest ≠ []) :
    guardSense? s = guardSense? S := by
  unfold guardSense?
  rw [hl.kind? fun _ => hr]

omit hst [Onward st] [Onward st'] in
/-- Behind the end there can be a guard, but not on this line. -/
theorem forGuard_at_end (hl : m.Lock true s S) (hr : s.rest = []) :
    forGuard.run s = (some none, s) ∧ forGuard.run S = (some none, S) := by
  refine ⟨by simp [forGuard, run_bind, guardSense?, State.kind?, hr], ?_⟩
  have hS := hl.nil hr
  obtain ht | ⟨u, us, ht, hb⟩ := m.tail_cases <;> rw [ht] at hS
  · simp [forGuard, run_bind, guardSense?, State.kind?, hS]
  · unfold forGuard
    rw [run_bind_some (run_look S)]
    rcases hb.apart with ⟨h, -⟩ | h
    · split
      · simp [State.onLine, hS, h]
      · rfl
    · simp [guardSense?, State.kind?, hS, h]

omit hst [Onward st] [Onward st'] in
theorem forGuard_alike : m.Alike false n forGuard forGuard m.Same := by
  intro s S hs hl
  by_cases hr : s.rest = []
  · obtain ⟨hrun, hrun'⟩ := forGuard_at_end hl hr
    rw [hrun, hrun']
    exact .yield .none hl
  · refine .look ?_
    rw [← guardSense?_eq hl hr]
    cases guardSense? s with
    | none => exact .pure hl .none
    | some sense =>
      refine .ite (hl.onLine fun _ => hr) (fun _ => ?_) fun _ => .pure hl .none
      exact (loopGuard_alike sense hs hl hr).bind (fun _ _ _ _ _ hv hl => .pure hl (.some hv)) fun _ _ h => h.elim

omit hst [Onward st] [Onward st'] in
theorem nextName_alike (hl : m.Lock true s S) (hr : s.rest ≠ []) :
    m.Outcome false true m.Same (fun _ => False) s (nextName.run s) (nextName.run S) := by
  obtain ⟨t, ts, hr⟩ := List.exists_cons_of_ne_nil hr
  refine .skipOne hl hr fun u us _ _ _ hp => ?_
  refine .ite hp.nameNext (fun h => ?_) fun _ => .pure hp .none
  cases ts with
  | nil => simp [State.nameNext, State.past] at h
  | cons t' ts' => exact .next hp rfl fun _ _ _ hu _ hp' => .pure hp' (.some hu.text)

theorem forNext_alike (ho : m.Like opener opener') :
    m.Alike false n (forNext st opener) (forNext st' opener') m.Same := by
  refine Alike.name.bind fun _ _ _ => (Alike.requireSymbol (y := .equals) (by decide)).bind fun _ _ _ => ?_
  refine expression_alike.bind fun _ _ _ => Alike.requireKeyword.bind fun _ _ _ => ?_
  refine expression_alike.bind fun _ _ _ => expression_alike.afterKeyword?.bind fun _ _ _ => ?_
  refine forGuard_alike.bind fun _ _ _ s S hs hl => ?_
  refine body_then hst .forBody hs hl (fun is is' stop s' S' his hs' hrest hl' => ?_)
    fun _ _ => .report
  cases stop with
  | closed =>
    refine (nextName_alike hl' (hrest rfl)).bind (fun _ _ _ _ _ _ hl => .pure hl ?_) fun _ _ h => h.elim
    simp_all [Same, relocate]
  | interrupted =>
    refine ((reportUnclosed_alike (owner_same ho.span)).bind fun _ _ _ => .pure ?_) s' S' hs' hl'
    simp_all [Same, relocate]
  | exhausted =>
    refine ((reportUnclosed_alike (owner_same ho.span)).bind fun _ _ _ => .pure ?_) s' S' hs' hl'
    simp_all [Same, relocate]

theorem loopRest_alike (sense : GuardSense) (ho : m.Same owner owner') (hs : s.rest.length < n)
    (hl : m.Lock true s S) (hr : s.rest ≠ []) :
    m.Outcome false true m.Same (fun _ => False) s ((loopRest st owner sense).run s)
      ((loopRest st' owner' sense).run S) := by
  refine (Outcome.orSkip (loopGuard_alike sense hs hl hr)).bind
    (fun guard guard' s' S' hrun hg hl' => ?_) fun _ _ h => h.elim
  have hle := Onward.rest_le (p := orSkip (loopGuard sense)) s
  rw [hrun] at hle
  refine (Alike.acceptKeyword.bind fun _ _ _ s S hs hl => ?_) s' S' (Nat.lt_of_le_of_lt hle hs) hl'
  refine body_then hst .loopAfter hs hl (fun is is' stop s' S' his hs' hrest hl' => ?_)
    fun _ _ => .report
  cases stop with
  | closed =>
    obtain ⟨t, ts, hr⟩ := List.exists_cons_of_ne_nil (hrest rfl)
    exact .skipOne hl' hr fun _ _ _ _ _ hp => .pure hp (.pair hg his)
  | interrupted => exact ((reportUnclosed_alike ho).bind fun _ _ _ => .pure (.pair hg his)) s' S' hs' hl'
  | exhausted => exact ((reportUnclosed_alike ho).bind fun _ _ _ => .pure (.pair hg his)) s' S' hs' hl'

theorem loopRepeat_alike (ho : m.Like opener opener') :
    m.Alike false n (loopRepeat st opener) (loopRepeat st' opener') m.Same := by
  intro s S hs hl
  refine @body_then _ _ _ _ _ _ _ _ hst .loopBefore _ _ _ _ _ _
    (fun r => @Onward.ite _ _ _ _ _ ?_ inferInstance)
    (fun r => @Onward.ite _ _ _ _ _ ?_ inferInstance) hs hl
    (fun is is' stop s' S' his hs' hrest hl' => ?_) fun _ _ => .report
  iterate 2
    refine @Onward.bind _ _ _ _ inferInstance fun s => ?_
    split <;> infer_instance
  cases stop with
  | closed =>
    refine .look ?_
    rw [← guardSense?_eq hl' (hrest rfl)]
    cases guardSense? s' with
    | some sense =>
      refine (loopRest_alike hst sense (owner_same ho.span) hs' hl' (hrest rfl)).bind
        (fun _ _ _ _ _ _ hl => .pure hl ?_) fun _ _ h => h.elim
      simp_all [Same, relocate]
    | none =>
      obtain ⟨t, ts, hr⟩ := List.exists_cons_of_ne_nil (hrest rfl)
      exact .skipOne hl' hr fun _ _ _ _ _ hp => .pure hp (by simp_all [Same, relocate])
  | interrupted =>
    refine ((reportUnclosed_alike (owner_same ho.span)).bind fun _ _ _ => .pure ?_) s' S' hs' hl'
    simp_all [Same, relocate]
  | exhausted =>
    refine ((reportUnclosed_alike (owner_same ho.span)).bind fun _ _ _ => .pure ?_) s' S' hs' hl'
    simp_all [Same, relocate]

instance : Located CaseProgress := ⟨fun f p => ⟨relocate f p.leading, relocate f p.cases⟩⟩

theorem caseArm_outcome {leading leading' : List Item} (hlead : m.Same leading leading')
    (hs : s.rest.length < n) (hl : m.Lock true s S) (hr : s.rest ≠ []) :
    m.Outcome false true m.Same (fun r => r.2 = .exhausted) s ((caseArm st leading).run s)
      ((caseArm st' leading').run S) := by
  obtain ⟨t, ts, hr⟩ := List.exists_cons_of_ne_nil hr
  refine .next hl hr fun u us _ hu _ hp => ?_
  have hts : (s.past t ts).rest.length < n := by
    rw [hr] at hs
    exact Nat.lt_of_succ_lt hs
  refine (Outcome.orSkip (expression_alike _ _ hts hp)).bind
    (fun c c' s' S' hrun hcond hl' => ?_) fun _ _ h => h.elim
  have hle := Onward.rest_le (p := orSkip expression) (s.past t ts)
  rw [hrun] at hle
  refine body_then hst .caseBody (Nat.lt_of_le_of_lt hle hts) hl'
    (fun is is' stop s' S' his hs' _ hl' => .look (.pure hl' (.pair ?_ rfl)))
    fun is s' => .inr ⟨_, rfl, rfl⟩
  have hsince := hl'.since hu.start
  obtain ⟨rfl, rfl⟩ | ⟨c, c', rfl, rfl, hcond⟩ := hcond.option
  · exact .none
  · simp_all [Same, relocate]

omit hst [Onward st] [Onward st'] in
theorem abandonCases_alike {cases cases' : List CaseArm} (ho : m.Same owner owner')
    (hc : m.Same cases cases') :
    m.Alike false n (abandonCases owner cases) (abandonCases owner' cases')
      (Step.Like m.Same m.Same) :=
  (reportUnclosed_alike ho).bind fun _ _ _ => .pure hc

omit hst [Onward st] [Onward st'] in
/-- What has been read after one more clause, or after one that was left out. -/
theorem caseProgress_same {p p' : CaseProgress} (hp : m.Same p p') (c c' : Option CaseArm) :
    m.Same c c' → m.Same (match c with
      | some c => (⟨[], p.cases ++ [c]⟩ : CaseProgress)
      | none => p)
    (match c' with
      | some c => ⟨[], p'.cases ++ [c]⟩
      | none => p') := by
  intro hc
  cases c <;> cases c' <;> simp_all [Same, relocate]

theorem caseArmStep_alike {p p' : CaseProgress} (ho : m.Same owner owner') (hp : m.Same p p')
    (hs : s.rest.length < n) (hl : m.Lock true s S) (hr : s.rest ≠ []) :
    m.Outcome false true (Step.Like m.Same m.Same) (fun _ => False) s
      ((caseArmStep st owner p).run s) ((caseArmStep st' owner' p').run S) := by
  have hlead : m.Same p.leading p'.leading := congrArg CaseProgress.leading hp
  refine Outcome.andThen (fun r => ?_) (fun r => ?_) (caseArm_outcome hst hlead hs hl hr)
    (fun r r' s' S' hrun hr hl' => ?_) fun r s' he => ?_
  · dsimp only
    split <;> infer_instance
  · dsimp only
    split <;> infer_instance
  · have hle := Onward.rest_le (p := caseArm st p.leading) s
    rw [hrun] at hle
    have hs' := Nat.lt_of_le_of_lt hle hs
    obtain ⟨c, stop⟩ := r
    obtain ⟨c', stop'⟩ := r'
    obtain ⟨hc, hstop⟩ := Prod.mk.inj hr
    have hstop : stop = stop' := hstop
    subst hstop
    have hnext := caseProgress_same hp c c' hc
    cases stop with
    | closed => exact .pure hl' hnext
    | interrupted => exact abandonCases_alike ho (congrArg CaseProgress.cases hnext) s' S' hs' hl'
    | exhausted => exact abandonCases_alike ho (congrArg CaseProgress.cases hnext) s' S' hs' hl'
  · obtain ⟨c, stop⟩ := r
    have he : stop = .exhausted := he
    subst he
    exact .report

theorem caseStep_alike {p p' : CaseProgress} (ho : m.Same owner owner') (hp : m.Same p p') :
    m.Alike false n (caseStep st owner p) (caseStep st' owner' p') (Step.Like m.Same m.Same) := by
  intro s S hs hl
  by_cases hc : m.cut ∧ s.rest = []
  · refine .cutoff hc.1 ?_ (by simp)
    simp [caseStep, commentItems, pendingComments, acceptAnywhere, run_bind, State.isAt,
      State.kind?, hc.2, abandonCases, reportUnclosed, report, -bind_pure_comp]
  · obtain ⟨is, is', s₁, S₁, hrun, hrun', his, hrest, hfaults, hl₁⟩ :=
      hl.commentItems (not_and.mp hc)
    have hc₁ : m.cut → s₁.rest ≠ [] := hrest ▸ not_and.mp hc
    have hs₁ : s₁.rest.length < n := hrest ▸ hs
    have hle : s.faults.length ≤ s₁.faults.length := Nat.le_of_eq (congrArg List.length hfaults.symm)
    have hp₁ : m.Same (⟨p.leading ++ is, p.cases⟩ : CaseProgress) ⟨p'.leading ++ is', p'.cases⟩ := by
      simp_all [Same, relocate]
    have hcases : m.Same p.cases p'.cases := congrArg CaseProgress.cases hp
    unfold caseStep
    rw [run_bind_some hrun, run_bind_some hrun']
    refine Outcome.back ?_ hle
    refine .ifAnywhere hl₁ hc₁ (fun _ _ _ hl => .pure hl hp₁) fun _ => .look ?_
    refine .ite (hl₁.isEmpty hc₁) (fun _ => abandonCases_alike ho hcases _ _ hs₁ hl₁) fun hempty => ?_
    have hne : s₁.rest ≠ [] := by simpa using hempty
    refine .ite hl₁.atEndCase (fun h => ?_) fun _ => ?_
    · simp only [State.atEndCase, Bool.and_eq_true] at h
      obtain ⟨t, ts, hr, -⟩ := State.rest_of_isAt h.1
      obtain ⟨t', ts', rfl, -⟩ := rest_of_isBeforeKeyword hr h.2
      exact .skip hl₁ Nat.two_pos (by simp [hr]) fun _ _ _ hl => .pure hl hcases
    refine .ite (hl₁.isAt hc₁ _) (fun _ => caseArmStep_alike hst ho hp₁ hs₁ hl₁ hne) fun _ => ?_
    have hany : closesAny s₁ s₁.blocks = closesAny S₁ S₁.blocks := by
      simp only [closesAny, ← hl₁.blocks, funext (hl₁.closes hc₁)]
    refine .ite hany (fun _ => abandonCases_alike ho hcases _ _ hs₁ hl₁) fun _ => ?_
    refine .beginStatement (.reportExpected hl₁.beginStatement fun s₂ S₂ hr₂ hl₂ => ?_)
    rw [hl₁.length]
    exact .recover hl₂ (by simpa using hne) (by simp) fun _ _ hl => .pure hl hp₁

theorem caseArms_alike (ho : m.Same owner owner') :
    m.Alike false n (caseArms st owner) (caseArms st' owner') m.Same :=
  Alike.loop (fun _ _ hp => caseStep_alike hst ho hp) rfl

theorem beginCase_alike (ho : m.Like opener opener') :
    m.Alike false n (beginCase st opener) (beginCase st' opener') m.Same :=
  Alike.requireKeyword.bind fun _ _ hw =>
    (caseArms_alike hst (owner_same (ho.span.merge hw.span))).bind fun _ _ _ =>
      .pure (by simp_all [Same, relocate])

end Statements
end PickSyntax.Grammar
