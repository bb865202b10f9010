import PickSyntax.Proofs.Account.Program
import PickSyntax.Proofs.Content.Line
import PickSyntax.Proofs.Parser.Recursion

/-!
# The content of statement lists, clauses and blocks

The statement of the grammar is known here to gather below a number of tokens left. A list of
statements takes the comments that stand before each of its items and before its end, so a body
that is closed leaves none in front of its terminator.

In a `BEGIN CASE` the comments that stand before a clause wait for it, and are left out if none
follows. Once a clause has been read none wait, since its body has taken all that stand before
the next `CASE` or the `END CASE`; so comments are left out only of a block without any clause.
-/
namespace PickSyntax.Grammar

open PickSyntax.Parser

variable {n : Nat} {acc : Content}

instance : Holds BodyEnd := ⟨fun _ => ∅⟩
instance : Bare BodyEnd := ⟨fun _ => rfl⟩

theorem drop_comments (s : State) (k : Nat) : (s.drop k).comments = s.comments := by
  induction k generalizing s with
  | zero => rfl
  | succ k ih =>
    unfold State.drop
    split
    · rfl
    · rw [ih]

theorem skip_gathers (k : Nat) : Gathers n ∅ (skip k) := by
  refine fun s _ _ => .of_brings fun _ s' hr => ?_
  cases hr
  obtain ⟨ts, ht, -⟩ := went_drop s k
  exact .of_went ht (drop_comments s k)

theorem beginStatement_gathers : Gathers n ∅ beginStatement := by
  refine fun s _ _ => .of_brings fun _ s' hr => ?_
  cases hr
  have hw : s.Went [] { s with begun := false } := ⟨rfl, rfl, rfl, rfl, List.prefix_rfl⟩
  exact .of_went hw rfl

theorem skipToBoundary_gathers : Gathers n ∅ skipToBoundary := by
  refine fun s _ _ => .of_brings fun _ s' hr => ?_
  cases hr
  exact s.brings_skipWhile _

theorem recover_gathers (left : Nat) : Gathers n ∅ (recover left) :=
  .look fun _ hn hs => .here ((skip_gathers _).next fun _ => skipToBoundary_gathers) hn hs

theorem endStatement_gathers (left : Nat) : Gathers n ∅ (endStatement left) :=
  .look fun _ hn hs => .ite (fun _ => .give (by simp)) fun _ =>
    .here (reportExpected_gathers.next fun _ => recover_gathers left) hn hs

/-- The comments before the next token are brought at once. -/
theorem brings_comments (s : State) :
    s.Brings (.ofComments (s.comments.takeWhile s.isPending))
      { s with comments := s.comments.dropWhile s.isPending } :=
  ⟨[], _, ⟨rfl, rfl, rfl, rfl, List.prefix_rfl⟩, List.takeWhile_append_dropWhile.symm, .bare,
    by simp, fun _ => .of_comments _⟩

theorem commentItems_gathers : Gathers n ∅ commentItems := by
  refine fun s _ _ => .of_brings fun v s' hr => ?_
  cases hr
  rw [content_comments]
  exact brings_comments s

/-- A statement that fails has taken tokens and comments, and recorded a fault. -/
theorem statement_none {s s' : State} (hs : s.Sound) (hr : statement.run s = (none, s')) :
    s.Brings ∅ s' ∧ s'.faults ≠ s.faults := by
  obtain ⟨ts, ht, hf⟩ :=
    statement_accounts (n := s.rest.length + 1) s (Nat.lt_succ_self _) hs.spelled
  obtain ⟨cs, hc⟩ := (statement_onward.reaches s).comments
  rw [hr] at ht hf hc
  exact ⟨⟨ts, cs, ht, hc.symm, .bare, List.nil_sublist _, fun he => absurd he hf⟩, hf⟩

section Nested
variable (hn : Gathers n ∅ statement)
include hn

theorem item_gathers : Gathers n ∅ (item statement) := by
  refine .look fun s hlt hs => ?_
  cases hl : label? s with
  | some l =>
    obtain ⟨t, us, hr, -, rfl⟩ := rest_of_label? hl
    refine (Meets.bind (R := fun ts v _ => ts = [t] ∧ v = some (Item.label ⟨t.text, t.span⟩))
      (Meets.skipOne hr (Meets.pure ⟨rfl, rfl⟩))).gathersAt hs ?_
    rintro _ _ s' - ⟨rfl, rfl⟩
    rw [content_some, content_label]
    exact ⟨.token, rfl⟩
  | none =>
    refine (beginStatement_gathers s hlt hs).next hs fun _ s₁ _ hle hs₁ => ?_
    refine .of_brings fun v s' hr => ?_
    rw [run_bind, run_catchFailure] at hr
    rcases hst : statement.run s₁ with ⟨_ | st, s₂⟩ <;> simp only [hst] at hr
    · obtain ⟨hb, -⟩ := statement_none hs₁ hst
      have hrec : GathersAt ∅ (recover s.rest.length >>= fun _ => pure (none : Option Item)) s₂ :=
        (recover_gathers _ s₂ (Nat.lt_succ_self _) (hb.sound hs₁)).next (hb.sound hs₁)
          fun _ _ _ _ _ => .give rfl
      simpa using hb.trans (hrec.brings hr)
    · have hb := (hn s₁ (Nat.lt_of_le_of_lt hle hlt) hs₁).brings hst
      have hend : GathersAt ∅ (endStatement s.rest.length) s₂ :=
        endStatement_gathers _ s₂ (Nat.lt_succ_self _) (hb.sound hs₁)
      rcases hrun : (endStatement s.rest.length).run s₂ with ⟨_ | _, s₃⟩
      · rw [run_bind_none hrun] at hr
        cases hr
      · rw [run_bind_some hrun] at hr
        cases hr
        simpa using hb.trans (hend.brings hrun)

theorem bodyStep_gathers (block : Block) (items : List Item) :
    Gathers n (content items) (bodyStep statement block items) := by
  refine commentItems_gathers.bind fun cs => acceptAnywhere_gathers.next fun _ => ?_
  refine .ite (fun _ => .give (by simp)) fun _ => .look fun s hlt hs => ?_
  refine .ite (fun _ => .give (by simp)) fun _ => .ite (fun _ => .give (by simp)) fun _ => ?_
  refine Returns.enclosing fun outer => GathersAt.ite (fun _ => .give (by simp)) fun _ => ?_
  exact .here ((item_gathers hn).bind fun i => .give (by simp)) hlt hs

theorem body_gathers (block : Block) : Gathers n ∅ (body statement block) :=
  fun _ hlt hs => .inBlock
    (Gathers.loop (bodyStep_gathers hn block) [] _ hlt ⟨hs.spelled, hs.ordered⟩)

omit hn in
theorem closeBlock_gathers (owner : Owner) (terminator : String) (stop : BodyEnd) :
    Gathers n ∅ (closeBlock owner terminator stop) := by
  cases stop with
  | closed => exact skip_gathers 1
  | interrupted => exact report_gathers
  | exhausted => exact report_gathers

theorem clauseStatement_gathers : Gathers n ∅ (clauseStatement statement) :=
  .look fun _ hlt hs => .ite (fun _ => .here (beginStatement_gathers.next fun _ => hn) hlt hs)
    fun _ => expected_gathers _ hlt hs

theorem onErrorClause_gathers : Gathers n ∅ (onErrorClause statement) := by
  refine .look fun _ hlt hs => .ite (fun _ => .here ?_ hlt hs) fun _ => .give (by simp)
  exact (skip_gathers 2).next fun _ => (clauseStatement_gathers hn).map fun _ => by simp

theorem lockedClause_gathers : Gathers n ∅ (lockedClause statement) :=
  afterKeyword_gathers (clauseStatement_gathers hn)

variable (owner : Owner)

theorem elseBlock_gathers : Gathers n ∅ (elseBlock statement owner) :=
  (body_gathers hn _).bind fun (items, stop) => (closeBlock_gathers _ _ stop).next fun _ =>
    .give (by simp)

theorem elseBranch_gathers : Gathers n ∅ (elseBranch statement owner) := by
  refine .look fun _ hlt hs => .ite (fun _ => ?_) fun _ => ?_
  · exact .here ((clauseStatement_gathers hn).bind fun _ => .give (by simp)) hlt hs
  · exact .here ((elseBlock_gathers hn owner).bind fun _ => .give (by simp)) hlt hs

theorem thenBlock_gathers : Gathers n ∅ (thenBlock statement owner) := by
  refine (body_gathers hn _).bind fun (items, stop) => .ite (fun _ => ?_) fun _ => ?_
  · refine .look fun s hlt hs => .ite (fun _ => .here ?_ hlt hs) fun _ => .here ?_ hlt hs
    · refine (skip_gathers 1).next fun _ => accept_gathers.next fun _ => ?_
      refine .ite (fun _ => ?_) fun _ => ?_
      · exact (elseBranch_gathers hn owner).bind fun (other, _) => .give (by simp)
      · exact .give (by simp)
    · refine (skip_gathers 1).next fun _ => ?_
      exact (elseBlock_gathers hn owner).bind fun _ => .give (by simp)
  · exact report_gathers.next fun _ => .give (by simp)

omit hn in
theorem closeInline_gathers (clause : Clause) :
    Gathers n (content clause) (closeInline clause) := by
  refine .look fun _ hlt hs => .ite (fun _ => ?_) fun _ => .give rfl
  exact .here ((skip_gathers 1).next fun _ => .give (by cases clause; simp)) hlt hs

theorem thenInline_gathers : Gathers n ∅ (thenInline statement owner) := by
  refine (clauseStatement_gathers hn).bind fun st => accept_gathers.next fun _ => ?_
  refine .ite (fun _ => ?_) fun _ => ?_
  · refine (elseBranch_gathers hn owner).bind fun (other, layout) => ?_
    simpa using closeInline_gathers ⟨some [.statement st], some other, layout⟩
  · simpa using closeInline_gathers ⟨some [.statement st], none, .inline⟩

theorem clause?_gathers : Gathers n ∅ (clause? statement owner) := by
  refine accept_gathers.next fun _ => .ite (fun _ => ?_) fun _ => ?_
  · refine .look fun _ hlt hs => .ite (fun _ => ?_) fun _ => ?_
    · exact .here ((thenInline_gathers hn owner).map fun _ => by simp) hlt hs
    · exact .here ((thenBlock_gathers hn owner).map fun _ => by simp) hlt hs
  refine accept_gathers.next fun _ => .ite (fun _ => ?_) fun _ => .give (by simp)
  refine (elseBranch_gathers hn owner).bind fun (other, layout) => .map ?_ fun _ => by simp
  simpa using closeInline_gathers ⟨none, some other, layout⟩

theorem requiredClause_gathers : Gathers n ∅ (requiredClause statement owner) := by
  refine (clause?_gathers hn owner).bind fun c => ?_
  cases c with
  | some c => exact .give (by simp)
  | none => exact .look fun _ hlt hs => reportFail_gathers _ hlt hs

theorem ifThen_gathers (opener : Token) : Gathers n ∅ (ifThen statement opener) :=
  expression_gathers.bind fun _ => (requiredClause_gathers hn _).bind fun clause => .give (by simp)

omit hn in
theorem loopGuard_gathers (sense : GuardSense) : Gathers n ∅ (loopGuard sense) :=
  (skip_gathers 1).next fun _ => expression_gathers.map fun _ => by simp

omit hn in
theorem forGuard_gathers : Gathers n ∅ forGuard := by
  refine .look fun s hlt hs => ?_
  cases guardSense? s with
  | none => exact .give (by simp)
  | some sense =>
    refine .ite (fun _ => ?_) fun _ => .give (by simp)
    exact .here ((loopGuard_gathers sense).map fun _ => by simp) hlt hs

omit hn in
theorem nextName_gathers : Gathers n ∅ nextName :=
  (skip_gathers 1).next fun _ => .look fun _ hlt hs => .ite
    (fun _ => .here (next_gathers.next fun _ => .give (by simp)) hlt hs) fun _ => .give (by simp)

theorem forNext_gathers (opener : Token) : Gathers n ∅ (forNext statement opener) := by
  refine name_gathers.next fun counter => require_gathers.next fun _ => ?_
  refine expression_gathers.bind fun start => require_gathers.next fun _ => ?_
  refine expression_gathers.bind fun limit => (afterKeyword_gathers expression_gathers).bind
    fun step => forGuard_gathers.bind fun guard => (body_gathers hn _).bind fun (items, stop) => ?_
  refine .ite (fun _ => ?_) fun _ => ?_
  · exact nextName_gathers.next fun _ => .give (by simp)
  · exact report_gathers.next fun _ => .give (by simp)

omit hn in
/-- A guard that fails has recorded its fault on the line, and is left out. -/
theorem orSkip_loopGuard_gathers {sense : GuardSense} :
    Gathers n ∅ (orSkip (loopGuard sense)) := by
  refine fun s hlt hs => (loopGuard_gathers sense s hlt hs).orSkip fun s' hr => ?_
  have hskip : (skip 1).run s = (some (), s.drop 1) := rfl
  have hb := (skip_gathers 1 s (Nat.lt_succ_self _) hs).brings hskip
  rcases he : expression.run (s.drop 1) with ⟨_ | e, s₁⟩
  · have hfail : (loopGuard sense).run s = (none, s₁) := by
      rw [loopGuard, run_bind_some hskip, run_bind_none he]
    cases hfail.symm.trans hr
    simpa using hb.trans ((expressionAt_exact 0 _).brings_none he)
  · have hval : (loopGuard sense).run s = (some ⟨sense, e⟩, s₁) := by
      rw [loopGuard, run_bind_some hskip, run_bind_some he, run_pure]
    cases hval.symm.trans hr

theorem loopRest_gathers (sense : GuardSense) : Gathers n ∅ (loopRest statement owner sense) := by
  refine orSkip_loopGuard_gathers.bind fun guard => accept_gathers.next fun _ => ?_
  refine (body_gathers hn _).bind fun (items, stop) => ?_
  exact (closeBlock_gathers _ _ stop).next fun _ => .give (by simp)

theorem loopRepeat_gathers (opener : Token) : Gathers n ∅ (loopRepeat statement opener) := by
  refine (body_gathers hn _).bind fun (before, stop) => .ite (fun _ => ?_) fun _ => ?_
  · refine .look fun s hlt hs => ?_
    cases guardSense? s with
    | some sense =>
      exact .here ((loopRest_gathers hn _ sense).bind fun (guard, after) => .give (by simp)) hlt hs
    | none => exact .here ((skip_gathers 1).next fun _ => .give (by simp)) hlt hs
  · exact report_gathers.next fun _ => .give (by simp)

omit hn in
theorem takeWhile_dropWhile {α : Type} (p : α → Bool) (l : List α) :
    (l.dropWhile p).takeWhile p = [] := by
  induction l with
  | nil => rfl
  | cons a l ih => cases h : p a <;> simp [h, ih]

omit hn in
/-- The end of a body has looked for comments and for a separator. -/
theorem bodyStep_placed {statement : Parser Statement} (block : Block) (items : List Item)
    (s : State) : Returns (bodyStep statement block items) s fun r s' => r.Says (fun _ => True)
      fun _ => s'.comments.takeWhile s'.isPending = [] := by
  refine Returns.bind fun cs s₁ h₁ => Returns.bind fun b s₂ h₂ => ?_
  refine Returns.ite (fun _ => .pure trivial) fun hb => Returns.look ?_
  have hplaced : s₂.comments.takeWhile s₂.isPending = [] := by
    cases h₁
    have h₂ := acceptAnywhere_returns _ _ b s₂ h₂
    simp only [Bool.not_eq_true] at hb
    subst hb h₂
    exact takeWhile_dropWhile _ _
  refine Returns.ite (fun _ => .pure hplaced) fun _ => Returns.ite (fun _ => .pure hplaced) fun _ => ?_
  refine Returns.enclosing fun outer => Returns.ite (fun _ => .pure hplaced) fun _ => ?_
  exact Returns.bind fun i s₃ _ => .pure trivial

omit hn in
/-- A body leaves no comment in front of the token at which it ends. -/
theorem body_placed {statement : Parser Statement} (block : Block) (s : State) :
    Returns (body statement block) s fun _ s' => s'.comments.takeWhile s'.isPending = [] := by
  intro r s' h
  unfold body at h
  rw [run_inBlock] at h
  rcases hl : (loop (bodyStep statement block) []).run { s with blocks := block :: s.blocks }
    with ⟨_ | c, s₁⟩
  · simp [hl] at h
  · have hc := Returns.loop (I := fun _ _ => True)
      (Q := fun _ s' => s'.comments.takeWhile s'.isPending = [])
      (fun items s _ => bodyStep_placed block items s) trivial c s₁ hl
    rw [hl] at h
    cases h
    exact hc

/-- A clause or the end of the block is next, and no comment stands before it. -/
structure Idle (s : State) : Prop where
  placed : s.comments.takeWhile s.isPending = []
  closes : closes s .caseBody = true

omit hn in
/-- The content of a `BEGIN CASE` is that of its clauses, if it has any. -/
theorem content_beginCase {cases : List CaseArm} (h : cases ≠ []) :
    content (Form.beginCase cases) = content cases := by
  cases cases with
  | nil => exact absurd rfl h
  | cons c cs => simp

omit hn in
/-- An expression is skipped only after a fault. -/
theorem orSkip_expression_none {s s' : State}
    (hr : (orSkip expression).run s = (some none, s')) : s'.faults ≠ s.faults := by
  obtain ⟨ts, -, hf⟩ : Meets expression s fun ts e _ => Exact ts e := expressionAt_exact 0 s
  rw [orSkip, run_bind, run_catchFailure] at hr
  rcases he : expression.run s with ⟨_ | e, s₁⟩ <;> simp only [he] at hr hf
  · obtain ⟨f, hf⟩ := hf
    cases hr
    change s₁.faults ≠ _
    simp [hf]
  · cases hr

/-- A clause brings its condition and body, after the comments that have waited for it. A clause
whose condition fails is left out, and a fault tells of it. -/
theorem caseArm_brings {ls : List Comment} {s : State} {t : Token} {us : List Token}
    (hlt : s.rest.length < n) (hs : s.Sound) (hr : s.rest = t :: us) :
    Returns (caseArm statement (ls.map Item.comment)) s fun r s' => ∃ new, s.Brings new s' ∧
      (∀ arm, r.1 = some arm → .ofComments ls ++ new = content arm) ∧
      (r.1 = none → new = ∅ ∧ s'.faults ≠ s.faults) ∧ (r.2 = .closed → Idle s') := by
  have hpast := State.Brings.past hr
  have hs₁ := hpast.sound hs
  refine Returns.bind fun opener s₁ h₁ => ?_
  rw [run_next hr] at h₁
  cases h₁
  have hcond : GathersAt ∅ (orSkip expression) (s.past t us) :=
    (expression_gathers _ (Nat.lt_succ_self _) hs₁).orSkip fun s' =>
      (expressionAt_exact 0 _).brings_none
  refine Returns.bind fun condition s₂ h₂ => ?_
  have hb₂ := hcond.brings h₂
  refine Returns.bind fun (items, stop) s₃ h₃ => Returns.look (.pure ?_)
  have hb₃ := (body_gathers hn .caseBody s₂
    (Nat.lt_of_le_of_lt (Nat.le_trans hb₂.length_le hpast.length_le) hlt) (hb₂.sound hs₁)).brings h₃
  have hall : s.Brings (content condition ++ content items) s₃ := by
    simpa using hpast.trans (hb₂.trans hb₃)
  have hidle (hstop : stop = .closed) : Idle s₃ :=
    ⟨body_placed _ _ _ s₃ h₃, body_closed _ _ _ _ s₃ h₃ hstop⟩
  cases condition with
  | some c =>
    have hshort : s₃.rest.length < s.rest.length := by
      have := (hb₂.trans hb₃).length_le
      rw [hr]
      exact Nat.lt_succ_of_le this
    refine ⟨_, hall.within hs hr hshort, fun arm harm => ?_, nofun, hidle⟩
    cases harm
    simp only [content_arm, content_append, content_comments, content_some]
    refine Content.ext (by simp) ?_
    simp [Expr.content_eq]
  | none =>
    have hf : s₃.faults ≠ s.faults := hb₂.faults_ne hb₃ (.inl (orSkip_expression_none h₂))
    exact ⟨∅, hall.drop hf, nofun, fun _ => ⟨rfl, hf⟩, hidle⟩

/-- What has been brought since `s₀` in a `BEGIN CASE`, with comments waiting. Only before the
first clause or after a fault may there be any. -/
structure Awaits (s₀ : State) (p : CaseProgress) (s : State) : Prop where
  waiting : ∃ ls : List Comment, p.leading = ls.map Item.comment
  brings : s₀.Brings (content p.cases ++ content p.leading) s
  idle : s.faults = s₀.faults → p.cases ≠ [] → p.leading = [] ∧ Idle s

section Awaits
variable {s₀ s s' : State} {p : CaseProgress} {owner : Owner}

omit hn in
/-- The clauses alone are brought, if nothing waits that matters. -/
theorem Awaits.cases (h : Awaits s₀ p s) : s₀.Brings (content (Form.beginCase p.cases)) s := by
  by_cases hp : p.cases = []
  · -- Without a clause all comments are lost in the gap.
    obtain ⟨ts, cs, hb⟩ := h.brings
    rw [hp]
    refine ⟨ts, cs, hb.went, hb.comments, by simpa using .bare, by simp, fun _ => ?_⟩
    simpa using FillsMarks.gap cs .nil
  rw [content_beginCase hp]
  obtain ⟨ls, hls⟩ := h.waiting
  obtain ⟨ts, cs, hb⟩ := h.brings
  have hx := hb.overlay
  have hsub := hb.sublist
  simp only [hls, content_comments, Content.extents_append, Content.extents_ofComments,
    List.append_nil, Content.comments_append] at hx hsub
  refine ⟨ts, cs, hb.went, hb.comments, hx, (List.sublist_append_left _ _).trans hsub,
    fun hf => ?_⟩
  have hnone := (h.idle hf hp).1
  simpa [hnone] using hb.fills hf

omit hn in
theorem Awaits.faulty (hw : ∃ ls : List Comment, p.leading = ls.map Item.comment)
    (hb : s₀.Brings (content p.cases ++ content p.leading) s) (hf : s.faults ≠ s₀.faults) :
    Awaits s₀ p s :=
  ⟨hw, hb, fun he => absurd he hf⟩

omit hn in
/-- The comments before the next token are added to those that wait. -/
theorem Awaits.comments (h : Awaits s₀ p s) :
    Returns commentItems s fun cs s' => Awaits s₀ ⟨p.leading ++ cs, p.cases⟩ s' := by
  intro cs s' hr
  cases hr
  obtain ⟨ls, hls⟩ := h.waiting
  refine ⟨⟨ls ++ _, by rw [hls, List.map_append]⟩, ?_, fun hf hne => ?_⟩
  · simpa using h.brings.trans (brings_comments s)
  · obtain ⟨hnone, hidle⟩ := h.idle hf hne
    have hsame : s.comments.dropWhile s.isPending = s.comments := by
      have := List.takeWhile_append_dropWhile (p := s.isPending) (l := s.comments)
      rwa [hidle.placed] at this
    refine ⟨by simp [hnone, hidle.placed], ?_⟩
    rw [hsame]
    exact hidle

/-- What a round of a `BEGIN CASE` carries on, or ends with. -/
def CaseRound (s₀ : State) (r : Step CaseProgress (List CaseArm)) (s : State) : Prop :=
  r.Says (Awaits s₀ · s) fun cases => s₀.Brings (content (Form.beginCase cases)) s

omit hn in
/-- A block that is abandoned has a fault to show for it. -/
theorem abandonCases_round (hw : ∃ ls : List Comment, p.leading = ls.map Item.comment)
    (hb : s₀.Brings (content p.cases ++ content p.leading) s) (hs : s.Sound) :
    Returns (abandonCases owner p.cases) s (CaseRound s₀) := by
  refine Returns.bind fun _ s' hr => .pure ?_
  have hrep : s.Brings ∅ s' := (report_gathers s (Nat.lt_succ_self _) hs).brings hr
  have hf : s'.faults ≠ s.faults := by
    cases hr
    simp
  have hall : s₀.Brings (content p.cases ++ content p.leading) s' := by
    simpa using hb.trans hrep
  exact (Awaits.faulty hw hall (hb.faults_ne hrep (.inr hf))).cases

theorem caseArmStep_round {t : Token} {us : List Token} (h : Awaits s₀ p s)
    (hlt : s.rest.length < n) (hs : s.Sound) (hr : s.rest = t :: us) :
    Returns (caseArmStep statement owner p) s (CaseRound s₀) := by
  obtain ⟨ls, hls⟩ := h.waiting
  refine Returns.bind fun (clause, stop) s' hrun => ?_
  rw [hls] at hrun
  obtain ⟨new, hb, hsome, hnone, hidle⟩ := caseArm_brings hn hlt hs hr _ s' hrun
  have hall := h.brings.trans hb
  have hs' := hb.sound hs
  rw [hls, content_comments, Content.append_assoc] at hall
  cases clause with
  | some arm =>
    rw [hsome arm rfl] at hall
    have hw : ∃ cs : List Comment, [] = cs.map Item.comment := ⟨[], rfl⟩
    have hall' : s₀.Brings (content (p.cases ++ [arm]) ++ content ([] : List Item)) s' := by
      simpa using hall
    cases stop with
    | closed => exact .pure ⟨hw, hall', fun _ _ => ⟨rfl, hidle rfl⟩⟩
    | _ => exact abandonCases_round (p := ⟨[], p.cases ++ [arm]⟩) hw hall' hs'
  | none =>
    obtain ⟨rfl, hf⟩ := hnone rfl
    have hall' : s₀.Brings (content p.cases ++ content p.leading) s' := by
      simpa [hls] using hall
    cases stop with
    | closed => exact .pure (.faulty ⟨ls, hls⟩ hall' (h.brings.faults_ne hb (.inr hf)))
    | _ => exact abandonCases_round ⟨ls, hls⟩ hall' hs'

/-- Each round of a `BEGIN CASE` brings what it reads, or leaves it waiting. -/
theorem caseStep_round (h : Awaits s₀ p s) (hlt : s.rest.length < n) (hs : s.Sound) :
    Returns (caseStep statement owner p) s (CaseRound s₀) := by
  refine Returns.bind fun cs s₁ h₁ => ?_
  have hp := h.comments cs s₁ h₁
  have hb₁ := (commentItems_gathers s hlt hs).brings h₁
  have hlt₁ := Nat.lt_of_le_of_lt hb₁.length_le hlt
  have hs₁ := hb₁.sound hs
  refine Returns.bind fun b s₂ h₂ => ?_
  have h₂ := acceptAnywhere_returns _ _ b s₂ h₂
  cases b with
  | true =>
    -- No separator stands where a clause or the end of the block does.
    obtain ⟨t, us, hr, hk, rfl⟩ := h₂
    refine .pure ⟨hp.waiting, by simpa using hp.brings.trans (.past hr), fun hf hne => ?_⟩
    have hcloses := (hp.idle hf hne).2.closes
    simp [closes, State.kind?, hr, hk] at hcloses
  | false =>
    subst h₂
    have habandon (p' : CaseProgress) (hp' : Awaits s₀ p' s₂) :
        Returns (abandonCases owner p'.cases) s₂ (CaseRound s₀) :=
      abandonCases_round hp'.waiting hp'.brings hs₁
    refine Returns.look (Returns.ite (fun _ => habandon _ hp) fun _ => ?_)
    refine Returns.ite (fun _ => Returns.bind fun _ s₃ h₃ => .pure ?_) fun _ => ?_
    · have hb₃ : s₂.Brings ∅ s₃ := (skip_gathers 2 s₂ hlt₁ hs₁).brings h₃
      have hall := hp.cases.trans hb₃
      rwa [Content.append_empty] at hall
    refine Returns.ite (fun hcase => ?_) fun _ => Returns.ite (fun _ => habandon _ hp) fun _ => ?_
    · obtain ⟨t, us, hr, -⟩ := State.rest_of_isAt hcase
      exact caseArmStep_round hn hp hlt₁ hs₁ hr
    · refine Returns.bind fun _ s₃ h₃ => Returns.bind fun _ s₄ h₄ => Returns.bind fun _ s₅ h₅ => ?_
      have hb₃ := (beginStatement_gathers s₂ hlt₁ hs₁).brings h₃
      have hb₄ := (reportExpected_gathers s₃ (Nat.lt_succ_self _) (hb₃.sound hs₁)).brings h₄
      have hb₅ := (recover_gathers _ s₄ (Nat.lt_succ_self _)
        (hb₄.sound (hb₃.sound hs₁))).brings h₅
      have hf : s₄.faults ≠ s₃.faults := by
        cases h₄
        simp
      have hall := hp.brings.trans (hb₃.trans (hb₄.trans hb₅))
      refine .pure (.faulty hp.waiting (by simpa using hall) ?_)
      exact hp.brings.faults_ne (hb₃.trans (hb₄.trans hb₅))
        (.inr (hb₃.faults_ne (hb₄.trans hb₅) (.inr (hb₄.faults_ne hb₅ (.inl hf)))))

end Awaits

theorem beginCase_gathers (opener : Token) : Gathers n ∅ (beginCase statement opener) := by
  refine require_gathers.next fun word s hlt hs => .of_brings (Returns.bind fun cases s' hr => ?_)
  refine .pure ?_
  refine Returns.loop (I := fun p s' => Awaits s p s')
    (Q := fun cases s' => s.Brings (content (Form.beginCase cases)) s') (fun p s' h => ?_)
    (v := ⟨[], []⟩) ⟨⟨[], rfl⟩, .refl s, fun _ h => absurd rfl h⟩ cases s' hr
  exact caseStep_round hn h (Nat.lt_of_le_of_lt h.brings.length_le hlt) (h.brings.sound hs)

end Nested

end PickSyntax.Grammar
