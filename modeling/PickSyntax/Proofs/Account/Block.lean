import PickSyntax.Grammar.Compound
import PickSyntax.Proofs.Account.Line

/-!
# Accounts of statement lists, clauses and blocks

The parsers here are given the parser of nested statements, which is known to account for
its tokens below a number of tokens left. A statement that fails leaves no item and tokens
are skipped after it; both happen only after a fault.

A terminator is skipped without another look at it. That it is a keyword, and so no leaf, is
what the end of the body has found out (`body_closed`).
-/
namespace PickSyntax.Grammar

open PickSyntax.Parser

variable {n : Nat} {acc : List Leaf}

theorem went_drop (s : State) (k : Nat) : ∃ ts, s.Went ts (s.drop k) ∧
    (s.drop k).faults = s.faults ∧ (k ≠ 0 → s.rest ≠ [] → ts ≠ []) := by
  induction k generalizing s with
  | zero => exact ⟨[], .refl s, rfl, fun h => absurd rfl h⟩
  | succ k ih =>
    unfold State.drop
    cases hr : s.rest with
    | nil => exact ⟨[], .refl s, rfl, fun _ h => absurd rfl h⟩
    | cons t us =>
      obtain ⟨ts, ht, hf, -⟩ := ih (s.past t us)
      have hone : s.Went [t] (s.past t us) := (State.took_past hr).went List.prefix_rfl
      exact ⟨[t] ++ ts, hone.trans ht, hf, by simp⟩

/-- Recovery records nothing, and goes past the first token of a failed statement. -/
theorem recover_run (left : Nat) (s : State) : ∃ ts s', (recover left).run s = (some (), s') ∧
    s.Went ts s' ∧ s'.faults = s.faults ∧ (s.rest.length = left → left ≠ 0 → ts ≠ []) := by
  obtain ⟨ts, ht, hf, hne⟩ := went_drop s (if s.rest.length = left then 1 else 0)
  have hskip := (s.drop (if s.rest.length = left then 1 else 0)).went_skipWhile
    fun t => !t.lineStart && !t.kind.resumes
  refine ⟨_, _, rfl, ht.trans hskip, hf, fun hl hpos => ?_⟩
  have hrest : s.rest ≠ [] := by
    intro he
    rw [he] at hl
    exact hpos hl.symm
  simp [hne (by simp [hl]) hrest]

theorem beginStatement_accounts : Accounts n [] beginStatement never leafless :=
  fun _ _ _ => ⟨[], ⟨rfl, rfl, rfl, rfl, List.prefix_rfl⟩, by simp, by simp, by simp⟩

/-- After a fault, tokens may be skipped. -/
theorem reportRecover_accountsAt {m : Unit → Bool} {d : String} {left : Nat} {s : State}
    (hleft : m () = true → s.rest.length = left ∧ left ≠ 0) :
    AccountsAt [] (reportExpected d >>= fun _ => recover left) m leafless s := by
  have hrep : (reportExpected d).run s = (some (), { s with faults := s.faults ++ [s.unexpected d] }) :=
    rfl
  obtain ⟨ts, s', hrun, ht, hf, hne⟩ :=
    recover_run left { s with faults := s.faults ++ [s.unexpected d] }
  unfold AccountsAt
  rw [run_bind_some hrep, hrun]
  refine ⟨ts, ?_, fun h => hne (hleft h).1 (hleft h).2, by simp, fun he => ?_⟩
  · exact ⟨ht.rest, ht.previous, ht.blocks, ht.angled, (List.prefix_append _ _).trans ht.faults⟩
  · rw [hf] at he
    simp at he

theorem endStatement_accounts (left : Nat) : Accounts n [] (endStatement left) never leafless := by
  refine Accounts.look fun s _ _ => AccountsAt.ite (fun _ => ?_) fun _ => ?_
  · exact AccountsAt.give rfl rfl
  · exact reportRecover_accountsAt nofun

theorem commentItems_accounts : Accounts n [] commentItems never Item.leavesAll := by
  intro s _ _
  exact ⟨[], ⟨rfl, rfl, rfl, rfl, List.prefix_rfl⟩, by simp,
    by rw [show Item.leavesAll _ = [] from Item.leavesAll_comments _]; simp,
    fun _ => ⟨Item.leavesAll_comments _, settled_nil⟩⟩

/-- A label is a number that is next. -/
theorem rest_of_label? {s : State} {l : Label} (h : label? s = some l) :
    ∃ t us, s.rest = t :: us ∧ t.kind = .number ∧ l = ⟨t.text, t.span⟩ := by
  unfold label? at h
  split at h
  next => cases h
  next t us hr =>
    split at h
    next hk =>
      simp only [Bool.and_eq_true, beq_iff_eq] at hk
      exact ⟨t, us, hr, hk.1, by cases h; rfl⟩
    next => cases h

/-- Only a keyword closes a block, and `NOT` is not among those that do. -/
theorem rest_of_closes {s : State} {block : Block} (h : closes s block = true) :
    ∃ t us, s.rest = t :: us ∧ t.kind.isPlain = true := by
  cases hr : s.rest with
  | nil => simp [closes, State.kind?, hr] at h
  | cons t us =>
    refine ⟨t, us, rfl, ?_⟩
    cases hk : t.kind with
    | keyword k =>
      have hne : k ≠ .NOT := by
        rintro rfl
        cases block <;>
          simp [closes, State.kind?, State.atLoneEnd, State.atEndCase, State.isAt, hr, hk] at h
      simpa [TokenKind.isPlain, TokenKind.awaitsOperand] using hne
    | _ => simp [closes, State.kind?, hr, hk] at h

theorem bodyStep_closed (nested : Parser Statement) (block : Block) (items : List Item) (s : State) :
    Returns (bodyStep nested block items) s fun r s' =>
      r.Says (fun _ => True) fun c => c.2 = .closed → closes s' block = true := by
  refine Returns.bind fun cs s₁ _ => Returns.bind fun b s₂ _ => ?_
  refine Returns.ite (fun _ => .pure trivial) fun _ => Returns.look ?_
  refine Returns.ite (fun _ => .pure nofun) fun _ => ?_
  refine Returns.ite (fun hclose => .pure fun _ => hclose) fun _ => Returns.enclosing fun outer => ?_
  refine Returns.ite (fun _ => .pure nofun) fun _ => ?_
  exact Returns.bind fun i s₃ _ => .pure trivial

/-- A body that is closed stops in front of its terminator. -/
theorem body_closed (nested : Parser Statement) (block : Block) (s : State) :
    Returns (body nested block) s fun r s' => r.2 = .closed → closes s' block = true := by
  intro r s' h
  unfold body at h
  rw [run_inBlock] at h
  rcases hl : (loop (bodyStep nested block) []).run { s with blocks := block :: s.blocks }
    with ⟨_ | c, s₁⟩
  · simp [hl] at h
  · have hc := Returns.loop (I := fun _ _ => True) (Q := fun c s => c.2 = .closed → closes s block = true)
      (fun items s _ => bodyStep_closed nested block items s) trivial c s₁ hl
    rw [hl] at h
    cases h
    exact hc

theorem rest_of_isBeforeKeyword {s : State} {t : Token} {us : List Token} {k : Keyword}
    (hr : s.rest = t :: us) (h : s.isBeforeKeyword k = true) :
    ∃ u vs, us = u :: vs ∧ u.kind = .keyword k := by
  unfold State.isBeforeKeyword at h
  cases us with
  | nil => simp [hr] at h
  | cons u vs => exact ⟨u, vs, rfl, by simp_all⟩

section Nested
variable {nested : Parser Statement} (hn : Accounts n [] nested always Statement.leaves)
include hn

theorem item_accountsAt {s : State} (hs : s.rest.length < n) (hw : s.WellSpelled)
    (hne : s.rest ≠ []) :
    AccountsAt [] (item nested) always (fun o => Item.leavesAll o.toList) s := by
  refine AccountsAt.look ?_
  cases hl : label? s with
  | some l =>
    obtain ⟨t, us, hr, hk, rfl⟩ := rest_of_label? hl
    refine (Meets.bind (R := fun ts v _ => ts = [t] ∧ v = some (Item.label ⟨t.text, t.span⟩))
      (Meets.skipOne hr (Meets.pure ⟨rfl, rfl⟩))).accountsAt hw ?_
    rintro _ _ s' - - ⟨rfl, rfl⟩
    simp [Token.leaves, hk, TokenKind.awaitsOperand]
  | none =>
    refine (beginStatement_accounts s hs hw).bind hw fun _ s₁ h₁ hle hw₁ => ?_
    cases h₁
    refine (hn { s with begun := false } hs hw).catchFailure hw
      (fun st s₂ _ hle₂ hw₂ => ?_) fun ts s₂ ht => ?_
    · refine ((endStatement_accounts s.rest.length).andThen fun _ =>
        Accounts.give ?_ rfl) s₂ (Nat.lt_of_le_of_lt hle₂ hs) hw₂
      simp
    · obtain ⟨us, s₃, hrun, hu, -, hne'⟩ := recover_run s.rest.length s₂
      rw [run_bind_some hrun]
      refine ⟨us, hu, fun b hb => ⟨fun _ he => ?_, ?_⟩⟩
      · obtain ⟨rfl, rfl⟩ := List.append_eq_nil_iff.mp he
        have hsame : s.rest = s₂.rest := ht.rest
        exact hne' (by rw [hsame]) (by simpa using hne) rfl
      · cases hb
        simp

theorem bodyStep_accountsAt (block : Block) (items : List Item) {s : State} (hb : s.blocks ≠ [])
    (hs : s.rest.length < n) (hw : s.WellSpelled) :
    AccountsAt (Item.leavesAll items) (bodyStep nested block items) Step.isMore
      (Step.leaves Item.leavesAll fun r => Item.leavesAll r.1) s := by
  refine (commentItems_accounts s hs hw).bind hw fun cs s₁ hcs hle hw₁ => ?_
  have hb₁ : s₁.blocks ≠ [] := by
    cases hcs
    exact hb
  have hs₁ := Nat.lt_of_le_of_lt hle hs
  refine (acceptAnywhere_accounts rfl s₁ hs₁ hw₁).bind hw₁ fun b s₂ haccept hle₂ hw₂ => ?_
  have haccept := acceptAnywhere_returns _ _ b s₂ haccept
  cases b with
  | true => exact AccountsAt.give (by simp [Step.leaves]) rfl
  | false =>
    obtain rfl : s₂ = s₁ := haccept
    refine AccountsAt.look ?_
    refine AccountsAt.ite (fun _ => AccountsAt.give (by simp [Step.leaves]) rfl) fun hne => ?_
    refine AccountsAt.ite (fun _ => AccountsAt.give (by simp [Step.leaves]) rfl) fun _ => ?_
    refine AccountsAt.enclosing hb₁ fun outer => ?_
    refine AccountsAt.ite (fun _ => AccountsAt.give (by simp [Step.leaves]) rfl) fun _ => ?_
    refine (item_accountsAt hn hs₁ hw₂ (by simpa using hne)).bind hw₂ fun i _ _ _ _ => ?_
    exact AccountsAt.give (by simp [Step.leaves]) rfl

/-- The block that a body opens is open in all its rounds. -/
theorem body_accounts (block : Block) :
    Accounts n [] (body nested block) never fun r => Item.leavesAll r.1 := by
  intro s hs hw
  refine AccountsAt.inBlock (AccountsAt.loop (J := fun _ s' => s'.blocks ≠ [])
    (fun items s' hb hs hw => bodyStep_accountsAt hn block items hb hs hw) ?_ (v := [])
    (List.cons_ne_nil _ _) hs hw)
  intro _ _ _ _ hb hsame _
  rwa [hsame]

/-- What follows a body may rely on the terminator that has been found. -/
theorem body_bind {β : Type} {block : Block} {f : List Item × BodyEnd → Parser β} {r : β → Bool}
    {leaves : β → List Leaf} (hf : ∀ items stop s, s.rest.length < n → s.WellSpelled →
      (stop = .closed → closes s block = true) →
      AccountsAt (acc ++ Item.leavesAll items) (f (items, stop)) r leaves s) :
    Accounts n acc (body nested block >>= f) r leaves := by
  intro s hs hw
  refine (body_accounts hn block s hs hw).bind hw fun c s' hr hle hw' => ?_
  exact (hf c.1 c.2 s' (Nat.lt_of_le_of_lt hle hs) hw' (body_closed nested block s c s' hr)).mono fun b hb => by
    simpa using hb

omit hn in
/-- The terminator is skipped if it is there. -/
theorem closeBlock_accountsAt {owner : Owner} {terminator : String} {stop : BodyEnd} {block : Block}
    {s : State} (hs : s.rest.length < n) (hw : s.WellSpelled)
    (h : stop = .closed → closes s block = true) :
    AccountsAt [] (closeBlock owner terminator stop) never leafless s := by
  cases stop with
  | closed =>
    obtain ⟨t, us, hr, hk⟩ := rest_of_closes (h rfl)
    refine (Meets.skipOne (Q := fun ts _ _ => ts = [t]) hr rfl).accountsAt hw ?_
    rintro _ _ s' - - rfl
    simp [Token.leaves_of_isPlain hk, Token.settled_of_isPlain hk]
  | interrupted => exact report_accounts s hs hw
  | exhausted => exact report_accounts s hs hw

theorem clauseStatement_accounts :
    Accounts n [] (clauseStatement nested) always Statement.leaves := by
  refine Accounts.look fun s hs hw => AccountsAt.ite (fun _ => ?_) fun _ => ?_
  · exact (beginStatement_accounts.andThen fun _ => hn) s hs hw
  · exact expected_accounts s hs hw

theorem onErrorClause_accounts :
    Accounts n [] (onErrorClause nested) never Statement.leaves? := by
  refine Accounts.look fun s hs hw => AccountsAt.ite (fun h => ?_) fun _ => ?_
  · simp only [Bool.and_eq_true] at h
    obtain ⟨t, us, hr, hk, -⟩ := State.rest_of_isAtOnLine h.1
    obtain ⟨u, vs, rfl, hu⟩ := rest_of_isBeforeKeyword hr h.2
    refine Accounts.skipTwo ?_ hr (by rw [hk]; rfl) (by rw [hu]; rfl) hs hw
    exact (clauseStatement_accounts hn).andThen fun st => Accounts.give (by simp) rfl
  · exact AccountsAt.give (by simp) rfl

theorem lockedClause_accounts :
    Accounts n [] (lockedClause nested) never Statement.leaves? :=
  afterKeyword_accounts (clauseStatement_accounts hn) rfl (by simp) fun _ => by simp

variable (owner : Owner)

theorem elseBlock_accounts : Accounts n [] (elseBlock nested owner) never Item.leavesAll := by
  refine body_bind hn fun items stop s hs hw hstop => ?_
  refine (closeBlock_accountsAt hs hw hstop).bind hw fun _ _ _ _ _ => ?_
  exact AccountsAt.give (by simp) rfl

theorem elseBranch_accounts :
    Accounts n [] (elseBranch nested owner) never fun r => Item.leavesAll r.1 := by
  refine Accounts.look fun s hs hw => AccountsAt.ite (fun _ => ?_) fun _ => ?_
  · refine ((clauseStatement_accounts hn).andThen fun st => Accounts.give ?_ rfl) s hs hw
    simp
  · exact ((elseBlock_accounts hn owner).andThen fun items => Accounts.give (by simp) rfl) s hs hw

theorem thenBlock_accounts : Accounts n [] (thenBlock nested owner) never Clause.leaves := by
  refine body_bind hn fun items stop s hs hw hstop => ?_
  refine AccountsAt.ite (fun h => ?_) fun _ => ?_
  · obtain ⟨t, us, hr, hk⟩ := rest_of_closes (hstop (by simpa using h))
    refine AccountsAt.ite (s := s) (fun _ => ?_) fun _ => ?_
    · refine Accounts.skipOne ?_ hr hk hs hw
      refine (accept_accounts rfl).andThen fun b => Accounts.ite (fun _ => ?_) fun _ => ?_
      · exact (elseBranch_accounts hn owner).andThen fun other => Accounts.give (by simp) rfl
      · exact Accounts.give (by simp) rfl
    · refine Accounts.skipOne ?_ hr hk hs hw
      exact (elseBlock_accounts hn owner).andThen fun other => Accounts.give (by simp) rfl
  · refine (report_accounts.andThen fun _ => Accounts.give ?_ rfl) s hs hw
    simp

omit hn in
theorem closeInline_accounts {clause : Clause} (hc : clause.leaves = acc) :
    Accounts n acc (closeInline clause) never Clause.leaves := by
  refine Accounts.look fun s hs hw => AccountsAt.ite (fun h => ?_) fun _ => ?_
  · simp only [Bool.and_eq_true, State.atLoneEnd] at h
    obtain ⟨t, us, hr, hk⟩ := State.rest_of_isAt h.1.2.1
    refine Accounts.skipOne (Accounts.give ?_ rfl) hr (by rw [hk]; rfl) hs hw
    cases clause
    simpa using hc
  · exact AccountsAt.give hc rfl

theorem thenInline_accounts : Accounts n [] (thenInline nested owner) never Clause.leaves := by
  refine (clauseStatement_accounts hn).andThen fun st => (accept_accounts rfl).andThen fun b => ?_
  refine Accounts.ite (fun _ => ?_) fun _ => closeInline_accounts (by simp)
  exact (elseBranch_accounts hn owner).andThen fun other => closeInline_accounts (by simp)

theorem clause?_accounts : Accounts n [] (clause? nested owner) never Clause.leaves? := by
  refine (accept_accounts rfl).andThen fun b => Accounts.ite (fun _ => ?_) fun _ => ?_
  · refine Accounts.look fun s hs hw => AccountsAt.ite (fun _ => ?_) fun _ => ?_
    · exact ((thenInline_accounts hn owner).andThen fun c => Accounts.give (by simp) rfl) s hs hw
    · exact ((thenBlock_accounts hn owner).andThen fun c => Accounts.give (by simp) rfl) s hs hw
  refine (accept_accounts rfl).andThen fun b => Accounts.ite (fun _ => ?_) fun _ => ?_
  · refine (elseBranch_accounts hn owner).andThen fun other => ?_
    exact (closeInline_accounts (by simp)).map fun _ => by simp
  · exact Accounts.give (by simp) rfl

theorem requiredClause_accounts : Accounts n [] (requiredClause nested owner) never Clause.leaves := by
  refine (clause?_accounts hn owner).andThen fun c => ?_
  cases c with
  | some c => exact Accounts.give (by simp) rfl
  | none => exact Accounts.look fun s hs hw => reportFail_accounts s hs hw

theorem ifThen_accounts (opener : Token) : Accounts n [] (ifThen nested opener) never Form.leaves := by
  refine expression_accounts.andThen fun condition => ?_
  exact (requiredClause_accounts hn _).andThen fun clause => Accounts.give (by simp) rfl

omit hn in
/-- The word of a guard is a keyword. -/
theorem rest_of_guardSense? {s : State} {sense : GuardSense} (h : guardSense? s = some sense) :
    ∃ t us, s.rest = t :: us ∧ t.kind.isPlain = true := by
  unfold guardSense? State.kind? at h
  cases hr : s.rest with
  | nil => simp [hr] at h
  | cons t us =>
    refine ⟨t, us, rfl, ?_⟩
    simp only [hr, List.head?_cons, Option.map_some] at h
    split at h
    next hk =>
      rw [Option.some.inj hk]
      rfl
    next hk =>
      rw [Option.some.inj hk]
      rfl
    next => cases h

omit hn in
theorem loopGuard_accountsAt {s : State} {sense : GuardSense} (hs : s.rest.length < n)
    (hw : s.WellSpelled) (h : guardSense? s = some sense) :
    AccountsAt [] (loopGuard sense) never LoopGuard.leaves s := by
  obtain ⟨t, us, hr, hk⟩ := rest_of_guardSense? h
  refine Accounts.skipOne ?_ hr hk hs hw
  exact expression_accounts.andThen fun condition => Accounts.give (by simp) rfl

omit hn in
theorem forGuard_accounts : Accounts n [] forGuard never LoopGuard.leaves? := by
  refine Accounts.look fun s hs hw => ?_
  cases hg : guardSense? s with
  | none => exact AccountsAt.give (by simp) rfl
  | some sense =>
    refine AccountsAt.ite (fun _ => ?_) fun _ => AccountsAt.give (by simp) rfl
    refine (loopGuard_accountsAt hs hw hg).bind hw fun guard _ _ _ _ => ?_
    exact AccountsAt.give (by simp) rfl

omit hn in
theorem nextName_accountsAt {s : State} (hs : s.rest.length < n) (hw : s.WellSpelled)
    (h : closes s .forBody = true) : AccountsAt [] nextName never nameLeaves? s := by
  obtain ⟨t, us, hr, hk⟩ := rest_of_closes h
  refine Accounts.skipOne ?_ hr hk hs hw
  refine Accounts.look fun s hs hw => AccountsAt.ite (fun hname => ?_) fun _ => ?_
  · refine (nextNamed_accountsAt hname hw).bind hw fun t _ _ _ _ => ?_
    exact AccountsAt.give (by simp) rfl
  · exact AccountsAt.give (by simp) rfl

theorem forNext_accounts (opener : Token) :
    Accounts n [] (forNext nested opener) never Form.leaves := by
  have hstep : Accounts n [] (afterKeyword? .STEP expression) never Expr.leaves? :=
    afterKeyword_accounts expression_accounts rfl rfl fun _ => rfl
  refine name_accounts.andThen fun counter => (require_accounts rfl).andThen fun _ => ?_
  refine expression_accounts.andThen fun start => (require_accounts rfl).andThen fun _ => ?_
  refine expression_accounts.andThen fun limit => hstep.andThen fun step => ?_
  refine forGuard_accounts.andThen fun guard => body_bind hn fun items stop s hs hw hstop => ?_
  refine AccountsAt.ite (fun h => ?_) fun _ => ?_
  · refine (nextName_accountsAt hs hw (hstop (by simpa using h))).bind hw fun next _ _ _ _ => ?_
    exact AccountsAt.give (by simp) rfl
  · exact (report_accounts.andThen fun _ => Accounts.give (by simp) rfl) s hs hw

theorem loopRest_accountsAt {owner : Owner} {s : State} {sense : GuardSense} (hs : s.rest.length < n)
    (hw : s.WellSpelled) (h : guardSense? s = some sense) :
    AccountsAt [] (loopRest nested owner sense) never
      (fun r => LoopGuard.leaves? r.1 ++ Item.leavesAll r.2) s := by
  have hguard : AccountsAt [] (orSkip (loopGuard sense)) never LoopGuard.leaves? s :=
    (loopGuard_accountsAt hs hw h).orSkip hw (by simp) fun _ => by simp
  refine hguard.bind hw fun guard s₁ _ hle hw₁ => ?_
  refine ((accept_accounts rfl).andThen fun _ => body_bind hn fun items stop s hs hw hstop => ?_)
    s₁ (Nat.lt_of_le_of_lt hle hs) hw₁
  refine (closeBlock_accountsAt hs hw hstop).bind hw fun _ _ _ _ _ => ?_
  exact AccountsAt.give (by simp) rfl

theorem loopRepeat_accounts (opener : Token) :
    Accounts n [] (loopRepeat nested opener) never Form.leaves := by
  refine body_bind hn fun before stop s hs hw hstop => ?_
  refine AccountsAt.ite (fun h => ?_) fun _ => ?_
  · refine AccountsAt.look ?_
    cases hg : guardSense? s with
    | some sense =>
      refine (loopRest_accountsAt hn hs hw hg).bind hw fun r _ _ _ _ => ?_
      exact AccountsAt.give (by simp) rfl
    | none =>
      obtain ⟨t, us, hr, hk⟩ := rest_of_closes (hstop (by simpa using h))
      exact Accounts.skipOne (Accounts.give (by simp) rfl) hr hk hs hw
  · exact (report_accounts.andThen fun _ => Accounts.give (by simp) rfl) s hs hw

/-- The leaves of a clause, if its condition could be read. -/
def armLeaves (r : Option CaseArm × BodyEnd) : List Leaf := CaseArm.leavesAll r.1.toList

omit hn in
/-- Without its condition a clause is left out, and only its body is read. -/
theorem run_bodyDropped (statement : Parser Statement) {g : List Item → State → Expr → CaseArm}
    (s : State) :
    let q : Parser (Option CaseArm × BodyEnd) := do
      let (items, stop) ← body statement .caseBody
      let s ← look
      return (none.map (g items s), stop)
    (q.run s).2 = ((body statement .caseBody).run s).2 ∧
      ∀ b, (q.run s).1 = some b → b.1 = none := by
  intro q
  rcases hr : (body statement .caseBody).run s with ⟨_ | r, s'⟩
  · simp [q, run_bind_none hr]
  · rw [run_bind_some hr]
    refine ⟨rfl, fun b hb => ?_⟩
    cases hb
    rfl

/-- A clause accounts for its tokens; the comments handed to it are no leaves. -/
theorem caseArm_accountsAt {s : State} {t : Token} {us : List Token} {leading : List Item}
    (hs : s.rest.length < n) (hw : s.WellSpelled) (hr : s.rest = t :: us)
    (ht : t.kind.isPlain = true) (hl : Item.leavesAll leading = []) :
    AccountsAt [] (caseArm nested leading) always armLeaves s := by
  have hone : s.Went [t] (s.past t us) := (State.took_past hr).went List.prefix_rfl
  have hs' := Nat.lt_of_le_of_lt hone.length_le hs
  have hw' := hone.wellSpelled hw
  suffices h : AccountsAt [] (orSkip expression >>= fun condition => do
      let (items, stop) ← body nested .caseBody
      let span := (← look).since t.span.start
      return (condition.map fun c => ⟨c, leading ++ items, span⟩, stop)) never armLeaves
      (s.past t us) from h.past hr (run_next hr) ht
  unfold orSkip
  rw [bind_assoc]
  refine (expression_accounts _ hs' hw').catchFailure hw' (fun c s₁ _ hle hw₁ => ?_)
    fun ts s₁ h₁ => ?_
  · refine (body_bind hn fun items stop s hs hw _ => ?_) s₁ (Nat.lt_of_le_of_lt hle hs') hw₁
    exact AccountsAt.look (AccountsAt.give (by simp [armLeaves, hl]) rfl)
  · have hskip := s₁.went_skipWhile fun t => !t.lineStart && !t.kind.resumes
    have hgo := h₁.trans hskip
    -- The condition has failed and with it the clause, whatever its body holds.
    obtain ⟨vs, hv, -⟩ := body_accounts hn .caseBody _ (Nat.lt_of_le_of_lt hgo.length_le hs')
      (hgo.wellSpelled hw')
    have hdrop := run_bodyDropped nested
      (g := fun items s c => ⟨c, leading ++ items, s.since t.span.start⟩)
      (s₁.skipWhile fun t => !t.lineStart && !t.kind.resumes)
    refine ⟨_ ++ vs, hskip.trans (hdrop.1 ▸ hv), fun b hb => ⟨nofun, ?_⟩⟩
    rw [armLeaves, hdrop.2 b hb]
    simp

/-- The leaves of the clauses read so far. -/
def CaseProgress.leaves (p : CaseProgress) : List Leaf := CaseArm.leavesAll p.cases

/-- Only comments wait for the next clause. -/
def CaseProgress.Waiting (p : CaseProgress) : Prop := Item.leavesAll p.leading = []

omit hn in
theorem abandonCases_accounts (cases : List CaseArm) :
    Accounts n (CaseArm.leavesAll cases) (abandonCases owner cases) Step.isMore
      (Step.leaves CaseProgress.leaves CaseArm.leavesAll) :=
  report_accounts.andThen fun _ => Accounts.give (by simp [Step.leaves]) rfl

theorem caseArmStep_accountsAt {s : State} {t : Token} {us : List Token} {p : CaseProgress}
    (hs : s.rest.length < n) (hw : s.WellSpelled) (hr : s.rest = t :: us)
    (ht : t.kind.isPlain = true) (hp : p.Waiting) :
    AccountsAt p.leaves (caseArmStep nested owner p) Step.isMore
      (Step.leaves CaseProgress.leaves CaseArm.leavesAll) s := by
  refine (caseArm_accountsAt hn hs hw hr ht hp).bind hw fun r s₁ _ hle hw₁ => ?_
  have habandon (cases : List CaseArm) : AccountsAt (CaseArm.leavesAll cases)
      (abandonCases owner cases) (fun _ => false)
      (Step.leaves CaseProgress.leaves CaseArm.leavesAll) s₁ :=
    (abandonCases_accounts owner cases s₁ (Nat.lt_of_le_of_lt hle hs) hw₁).mono nofun
  obtain ⟨arm, stop⟩ := r
  cases arm with
  | none =>
    cases stop with
    | closed => exact AccountsAt.give (by simp [Step.leaves, armLeaves]) rfl
    | _ => simpa [armLeaves, CaseProgress.leaves] using habandon p.cases
  | some arm =>
    cases stop with
    | closed =>
      exact AccountsAt.give (by simp [Step.leaves, armLeaves, CaseProgress.leaves]) rfl
    | _ => simpa [armLeaves, CaseProgress.leaves] using habandon (p.cases ++ [arm])

omit hn in
theorem leavesAll_commentItems (s : State) :
    Returns commentItems s fun cs _ => Item.leavesAll cs = [] := by
  intro cs s' h
  cases h
  exact Item.leavesAll_comments _

omit hn in
/-- Each round hands on nothing but comments. -/
theorem caseStep_waiting (statement : Parser Statement) (p : CaseProgress) (hp : p.Waiting)
    (s : State) : Returns (caseStep statement owner p) s fun r _ =>
      r.Says CaseProgress.Waiting fun _ => True := by
  refine Returns.bind fun cs s₁ hcs => ?_
  have hp' : Item.leavesAll (p.leading ++ cs) = [] := by
    rw [Item.leavesAll_append, hp, leavesAll_commentItems s cs s₁ hcs, List.append_nil]
  have habandon (cases : List CaseArm) (s : State) : Returns (abandonCases owner cases) s fun r _ =>
      r.Says CaseProgress.Waiting fun _ => True := Returns.bind fun _ _ _ => .pure trivial
  refine Returns.bind fun b s₂ _ => Returns.ite (fun _ => .pure hp') fun _ => Returns.look ?_
  refine Returns.ite (fun _ => habandon _ _) fun _ => ?_
  refine Returns.ite (fun _ => Returns.bind fun _ _ _ => .pure trivial) fun _ => ?_
  refine Returns.ite (fun _ => ?_) fun _ => ?_
  · refine Returns.bind fun r s₃ _ => ?_
    obtain ⟨arm, stop⟩ := r
    cases arm <;> cases stop
    · exact .pure hp'
    · exact habandon _ _
    · exact habandon _ _
    · exact .pure (by simp [Step.Says, CaseProgress.Waiting])
    · exact habandon _ _
    · exact habandon _ _
  refine Returns.ite (fun _ => habandon _ _) fun _ => ?_
  exact Returns.bind fun _ _ _ => Returns.bind fun _ _ _ => Returns.bind fun _ _ _ => .pure hp'

theorem caseStep_accounts (p : CaseProgress) (hp : p.Waiting) :
    Accounts n p.leaves (caseStep nested owner p) Step.isMore
      (Step.leaves CaseProgress.leaves CaseArm.leavesAll) := by
  intro s hs hw
  refine (commentItems_accounts s hs hw).bind hw fun cs s₁ hcs hle hw₁ => ?_
  have hcs' := leavesAll_commentItems s cs s₁ hcs
  have hp' : CaseProgress.Waiting ⟨p.leading ++ cs, p.cases⟩ := by
    rw [CaseProgress.Waiting, Item.leavesAll_append, hp, hcs', List.append_nil]
  rw [hcs', List.append_nil]
  refine ((acceptAnywhere_accounts rfl).bind fun b => ?_) s₁ (Nat.lt_of_le_of_lt hle hs) hw₁
  rw [List.append_nil]
  cases b with
  | true => exact Accounts.give rfl rfl
  | false =>
    refine Accounts.look fun s hs hw => ?_
    refine AccountsAt.ite (fun _ => abandonCases_accounts owner _ s hs hw) fun hne => ?_
    refine AccountsAt.ite (fun hend => ?_) fun _ => ?_
    · simp only [State.atEndCase, Bool.and_eq_true] at hend
      obtain ⟨t, us, hr, hk⟩ := State.rest_of_isAt hend.1
      obtain ⟨u, vs, rfl, hu⟩ := rest_of_isBeforeKeyword hr hend.2
      exact Accounts.skipTwo (Accounts.give rfl rfl) hr (by rw [hk]; rfl) (by rw [hu]; rfl) hs hw
    refine AccountsAt.ite (fun hcase => ?_) fun _ => ?_
    · obtain ⟨t, us, hr, hk⟩ := State.rest_of_isAt hcase
      exact caseArmStep_accountsAt hn owner hs hw hr (by rw [hk]; rfl) hp'
    refine AccountsAt.ite (fun _ => abandonCases_accounts owner _ s hs hw) fun _ => ?_
    refine (beginStatement_accounts s hs hw).bind hw fun _ s₂ h₂ _ hw₂ => ?_
    cases h₂
    rw [← bind_assoc, List.append_nil]
    refine AccountsAt.bind (m := always) (reportRecover_accountsAt fun _ => ⟨rfl, ?_⟩) hw₂
      fun _ _ _ _ _ => AccountsAt.give (by simp [Step.leaves, CaseProgress.leaves]) rfl
    simpa using hne

theorem caseArms_accounts : Accounts n [] (caseArms nested owner) never CaseArm.leavesAll :=
  Accounts.loop (I := CaseProgress.Waiting) (fun p hp => caseStep_accounts hn owner p hp)
    (fun p p' s s' hp h => caseStep_waiting owner nested p hp s _ s' h) (v := ⟨[], []⟩) (by
      simp [CaseProgress.Waiting])

theorem beginCase_accounts (opener : Token) :
    Accounts n [] (beginCase nested opener) never Form.leaves := by
  refine (require_accounts rfl).andThen fun word => ?_
  exact (caseArms_accounts hn _).andThen fun cases => Accounts.give (by simp) rfl

end Nested

end PickSyntax.Grammar
