import PickSyntax.Proofs.Content.Program
import PickSyntax.Proofs.Lexing.Streams
import PickSyntax.Proofs.Structure.Bodies

/-!
# A program without faults is derived

The remaining forms hold other statements only in what is attached to them, or none at all. With
them every statement is derived, by induction on the tokens left, and so is every program of
which nothing is recorded.
-/
namespace PickSyntax.Grammar

open PickSyntax.Parser

section Attached
variable {n : Nat} {b : Bool} {s : State} {xs : List Token} (hn : Nested n)
include hn

/-- Branches behind what is attached in front of them. -/
theorem clause?_attached {owner : Owner} {form : Option Clause → Form} {ws vs : List Token}
    {onError locked : Option Statement}
    (hf : ∀ c, (form c).attachments? = some ⟨onError, locked, c⟩) (hw : ws <:+ xs)
    (he : Derived b ws vs (.single onError)) (hl : Derived b vs s.rest (.single locked))
    (hs : Ready n b s) : Clean (do return form (← clause? statement owner)) s fun f s' =>
      Derived b xs s'.rest (.form f) := by
  refine .bind ((clause?_clean hn hs).mono fun c s' hc _ => .pure ?_)
  exact .attached (hf c) hw he hl hc

theorem onError_attached {form : Option Statement → Form}
    (hf : ∀ e, (form e).attachments? = some ⟨e, none, none⟩) (h : Underway n b xs s) :
    Clean (do return form (← onErrorClause statement)) s fun f s' =>
      Derived b xs s'.rest (.form f) := by
  refine .bind ((onErrorClause_clean hn h.ready).mono fun e s' he _ => .pure ?_)
  exact .attached (hf e) h.rest he .noSingle .noClause

theorem all_attached {owner : Owner}
    {form : Option Statement → Option Statement → Option Clause → Form}
    (hf : ∀ e l c, (form e l c).attachments? = some ⟨e, l, c⟩) (h : Underway n b xs s) :
    Clean (do
      let onError ← onErrorClause statement
      let locked ← lockedClause statement
      return form onError locked (← clause? statement owner)) s fun f s' =>
        Derived b xs s'.rest (.form f) := by
  refine .bind ((onErrorClause_clean hn h.ready).mono fun e s₁ he h₁ => ?_)
  have h₁ := h.reaches h₁
  refine .bind ((lockedClause_clean hn h₁.ready).mono fun l s₂ hl h₂ => ?_)
  exact clause?_attached hn (hf e l) h.rest he hl (h₁.reaches h₂).ready

theorem ifThen_clean {opener : Token} (h : Underway n b xs s) :
    Clean (ifThen statement opener) s fun f s' => Derived b xs s'.rest (.form f) := by
  refine h.past fun condition s h => ?_
  refine .bind ((requiredClause_clean hn h.ready).mono fun c s' hc _ => .pure ?_)
  exact .attached rfl h.rest .noSingle .noSingle hc

-- The statement is long, and so are the instances.
set_option synthInstance.maxSize 1024 in
theorem inputAt_clean {opener : Token} (h : Underway n b xs s) :
    Clean (inputAt statement opener) s fun f s' => Derived b xs s'.rest (.form f) := by
  refine h.past fun _ s h => h.past fun _ s h => h.past fun column s h => ?_
  refine h.past fun _ s h => h.past fun row s h => h.past fun _ s h => ?_
  refine h.past fun _ s h => h.past fun into s h => h.past fun length s h => .look ?_
  exact clause?_attached hn (fun _ => rfl) h.rest .noSingle .noSingle h.ready

theorem input_clean {opener : Token} (h : Underway n b xs s) :
    Clean (input statement opener) s fun f s' => Derived b xs s'.rest (.form f) := by
  refine .look (.ite (fun _ => inputAt_clean hn h) fun _ => ?_)
  refine h.past fun into s h => h.past fun length s h => ?_
  exact clause?_attached hn (fun _ => rfl) h.rest .noSingle .noSingle h.ready

theorem openFile_clean {opener : Token} (h : Underway n b xs s) :
    Clean (openFile statement opener) s fun f s' => Derived b xs s'.rest (.form f) := by
  refine .bind_of (fun a => @Onward.bind _ _ _ _ inferInstance fun o => ?_)
    (.of_reaches fun a s₁ h₁ _ => .bind_of (fun o => ?_) (.of_reaches fun o s₂ h₂ _ => ?_))
  · cases o <;> infer_instance
  · cases o <;> infer_instance
  have h := (h.reaches h₁).reaches h₂
  cases o <;>
  · refine h.past fun into s h => ?_
    refine .bind ((onErrorClause_clean hn h.ready).mono fun e s₃ he h₃ => ?_)
    refine .bind ((requiredClause_clean hn (h.reaches h₃).ready).mono fun c s₄ hc _ => .pure ?_)
    exact .attached rfl h.rest he .noSingle hc

theorem read_clean {mode : RecordMode} {opener : Token} (h : Underway n b xs s) :
    Clean (read statement mode opener) s fun f s' => Derived b xs s'.rest (.form f) := by
  refine h.past fun into s h => h.past fun _ s h => h.past fun path s h => ?_
  exact all_attached hn (fun _ _ _ => rfl) h

theorem write_clean {mode : RecordMode} (h : Underway n b xs s) :
    Clean (write statement mode) s fun f s' => Derived b xs s'.rest (.form f) := by
  refine h.past fun value s h => h.past fun _ s h => h.past fun path s h => ?_
  exact onError_attached hn (fun _ => rfl) h

theorem delete_clean {opener : Token} (h : Underway n b xs s) :
    Clean (delete statement opener) s fun f s' => Derived b xs s'.rest (.form f) := by
  refine h.past fun path s h => ?_
  refine .bind ((onErrorClause_clean hn h.ready).mono fun e s₁ he h₁ => ?_)
  exact clause?_attached hn (fun _ => rfl) h.rest he .noSingle (h.reaches h₁).ready

theorem receive_clean {feed : Feed} {opener : Token} (h : Underway n b xs s) :
    Clean (receive statement feed opener) s fun f s' => Derived b xs s'.rest (.form f) := by
  refine h.past fun into s h => ?_
  exact clause?_attached hn (fun _ => rfl) h.rest .noSingle .noSingle h.ready

theorem lock_clean {opener : Token} (h : Underway n b xs s) :
    Clean (lock statement opener) s fun f s' => Derived b xs s'.rest (.form f) := by
  refine h.past fun number s h => ?_
  refine .bind ((lockedClause_clean hn h.ready).mono fun l s₁ hl h₁ => ?_)
  exact clause?_attached hn (fun _ => rfl) h.rest .noSingle hl (h.reaches h₁).ready

theorem clearFile_clean (h : Underway n b xs s) :
    Clean (clearFile statement) s fun f s' => Derived b xs s'.rest (.form f) := by
  refine h.past fun file s h => ?_
  exact onError_attached hn (fun _ => rfl) h

theorem matRead_clean {locking : Bool} {opener : Token} (h : Underway n b xs s) :
    Clean (matRead statement locking opener) s fun f s' => Derived b xs s'.rest (.form f) := by
  refine h.past fun array s h => h.past fun _ s h => h.past fun path s h => ?_
  exact all_attached hn (fun _ _ _ => rfl) h

theorem matWrite_clean {locking : Bool} (h : Underway n b xs s) :
    Clean (matWrite statement locking) s fun f s' => Derived b xs s'.rest (.form f) := by
  refine h.past fun array s h => h.past fun _ s h => h.past fun path s h => ?_
  exact onError_attached hn (fun _ => rfl) h

theorem locate_clean {opener : Token} (h : Underway n b xs s) :
    Clean (locate statement opener) s fun f s' => Derived b xs s'.rest (.form f) := by
  refine h.past fun value s h => h.past fun _ s h => h.past fun container s h => ?_
  refine h.past fun setting s h => ?_
  exact clause?_attached hn (fun _ => rfl) h.rest .noSingle .noSingle h.ready

end Attached

/-- Nothing is attached to the forms that the parser yields. -/
class Simple (p : Parser Form) : Prop where
  attachments : ∀ {s f s'}, p.run s = (some f, s') → f.attachments? = some .none

namespace Simple
variable {α : Type} {p q : Parser Form}

theorem pure {f : Form} (h : f.attachments? = some .none) : Simple (pure f) where
  attachments hr := by
    cases hr
    exact h

instance fail : Simple fail where
  attachments hr := by cases hr

instance bind {p : Parser α} {f : α → Parser Form} [hf : ∀ a, Simple (f a)] : Simple (p >>= f) where
  attachments {s g s'} hr := by
    rcases hp : p.run s with ⟨_ | a, s₁⟩
    · rw [run_bind_none hp] at hr
      cases hr
    · rw [run_bind_some hp] at hr
      exact (hf a).attachments hr

instance ite {c : Prop} [Decidable c] [hp : Simple p] [hq : Simple q] :
    Simple (if c then p else q) := by
  split
  · exact hp
  · exact hq

theorem map {p : Parser α} {f : α → Form} (h : ∀ a, (f a).attachments? = some .none) :
    Simple (p >>= fun a => Pure.pure (f a)) :=
  @bind _ _ _ fun a => pure (h a)

instance expected (d : String) : Simple (expected d) := bind

end Simple

theorem simple_clean {b : Bool} {s : State} {xs : List Token} {p : Parser Form}
    [ho : Onward p] [hp : Simple p] (hxs : s.rest <:+ xs) :
    Clean p s fun f s' => Derived b xs s'.rest (.form f) := by
  intro f s' hr _
  have h := (ho.reaches s).rest
  rw [hr] at h
  exact .attached (hp.attachments hr) (h.trans hxs) .noSingle .noSingle .noClause

instance subroutine_simple : Simple subroutine := by
  have (unit : String) : Simple (do return .subroutine (some unit) (← parameters)) := .map fun _ => rfl
  have : Simple (pure (.subroutine none [])) := .pure rfl
  unfold subroutine
  infer_instance

instance dim_simple : Simple dim := .map fun _ => rfl

instance common_simple : Simple common := @Simple.bind _ _ _ fun _ => .map fun _ => rfl

instance equate_simple : Simple equate :=
  @Simple.bind _ _ _ fun _ => @Simple.bind _ _ _ fun _ => .map fun _ => rfl

instance mat_simple : Simple mat :=
  @Simple.bind _ _ _ fun _ => @Simple.bind _ _ _ fun _ => .map fun _ => rfl

instance jump_simple (kind : JumpKind) : Simple (jump kind) := .map fun _ => rfl

instance go_simple : Simple go := Simple.bind

instance jumpOn_simple : Simple jumpOn :=
  @Simple.bind _ _ _ fun _ => @Simple.bind _ _ _ fun _ => .map fun _ => rfl

instance returnTo_simple : Simple returnTo := .map fun _ => rfl

instance print_simple : Simple print := @Simple.bind _ _ _ fun _ => .map fun _ => rfl

instance crt_simple : Simple crt := .map fun _ => rfl

instance inputTrap_simple : Simple inputTrap := @Simple.bind _ _ _ fun _ => .map fun _ => rfl

instance data_simple : Simple data := .map fun _ => rfl

instance switch_simple (device : Device) : Simple (switch device) := by
  have (state : SwitchState) : Simple (pure (.switch device state)) := .pure rfl
  unfold switch
  infer_instance

instance writeTape_simple : Simple writeTape :=
  @Simple.bind _ _ _ fun _ => @Simple.bind _ _ _ fun _ => .map fun _ => rfl

instance select_simple : Simple select := @Simple.bind _ _ _ fun _ => .map fun _ => rfl

instance execute_simple : Simple execute :=
  @Simple.bind _ _ _ fun _ => @Simple.bind _ _ _ fun _ => .map fun _ => rfl

instance call_simple : Simple call := @Simple.bind _ _ _ fun _ => .map fun _ => rfl

instance operandOf_simple (verb : OperandVerb) : Simple (operandOf verb) := .map fun _ => rfl

instance optionalOf_simple (verb : OptionalVerb) : Simple (optionalOf verb) := .map fun _ => rfl

instance bare_simple (verb : BareVerb) : Simple (pure (.bare verb)) := .pure rfl

instance strayTerminator_simple (terminator word : String) (span : Span) :
    Simple (strayTerminator terminator word span) := Simple.bind

instance assignmentOrExpression_simple (opener : Token) : Simple (assignmentOrExpression opener) := by
  have whole (p : Parser Expr) : Simple (do return .expression (← p)) := .map fun _ => rfl
  have (target : Expr) : Simple (do return .assignment target (← expression)) := .map fun _ => rfl
  have := whole expression
  have (target : Expr) := whole (chain expressionAt 0 target)
  unfold assignmentOrExpression
  infer_instance

section Statements
variable {n : Nat} {b : Bool} {s : State} {t : Token} {us : List Token}

theorem endUnit_clean :
    Clean (endUnit t) s fun f s' => Derived b s.rest s'.rest (.form f) := by
  refine .look (.ite (fun h => ?_) fun _ => .bind .report)
  obtain ⟨u, vs, hr', hlone⟩ := rest_of_atLoneEnd h
  rw [hr']
  exact .bind (.skipOne hr' fun _ => .pure (.endUnit hlone))

instance led_simple {p : Token → Parser Form} [∀ t, Simple (p t)] : Simple (led p) := by
  unfold led
  infer_instance

theorem led_clean {p : Token → Parser Form} [∀ t, Onward (p t)] {Q : Form → State → Prop}
    (hr : s.rest = t :: us) (h : Clean (p t) (s.past t us) Q) : Clean (led p) s Q :=
  .bind (.next hr fun _ => h)

theorem keywordForm_clean (hn : Nested n) (hs : Ready (n + 1) b s) (hr : s.rest = t :: us)
    (k : Keyword) :
    Clean (keywordForm statement k t) s fun f s' => Derived b s.rest s'.rest (.form f) := by
  have hs' : Ready n b (s.past t us) := by
    have h := hs.past hr
    have hfew := hs.few
    rw [hr, List.length_cons] at hfew
    exact ⟨by simpa [State.past] using hfew, h.sound, h.comments, h.awaits⟩
  have h : Underway n b s.rest (s.past t us) := ⟨hs', hr ▸ List.suffix_cons t us⟩
  cases k with
  | END => exact endUnit_clean
  | IF => exact led_clean hr (ifThen_clean hn h)
  | BEGIN => exact led_clean hr (beginCase_clean hn h)
  | FOR => exact led_clean hr (forNext_clean hn h)
  | LOOP => exact led_clean hr (loopRepeat_clean hn h)
  | INPUT => exact led_clean hr (input_clean hn h)
  | OPEN => exact led_clean hr (openFile_clean hn h)
  | READ | READU | READV | READVU => exact led_clean hr (read_clean hn h)
  | WRITE | WRITEU | WRITEV | WRITEVU => exact led_clean hr (write_clean hn h)
  | DELETE => exact led_clean hr (delete_clean hn h)
  | READNEXT | READT | PROCREAD => exact led_clean hr (receive_clean hn h)
  | LOCK => exact led_clean hr (lock_clean hn h)
  | CLEARFILE => exact led_clean hr (clearFile_clean hn h)
  | MATREAD | MATREADU => exact led_clean hr (matRead_clean hn h)
  | MATWRITE | MATWRITEU => exact led_clean hr (matWrite_clean hn h)
  | LOCATE => exact led_clean hr (locate_clean hn h)
  | _ =>
    unfold keywordForm
    exact simple_clean List.suffix_rfl

theorem form_clean (hn : Nested n) (hs : Ready (n + 1) b s) (hr : s.rest = t :: us) :
    Clean (form statement t) s fun f s' => Derived b s.rest s'.rest (.form f) := by
  unfold form
  split
  next k _ => exact keywordForm_clean hn hs hr k
  next => exact simple_clean List.suffix_rfl

/-- A statement reaches from the first token that it takes to the last. -/
theorem statement_covers {st : Statement} {s' : State} (hs : s.Sound)
    (hr : statement.run s = (some st, s')) : Covers s.rest s'.rest st.span := by
  obtain ⟨ts, ht, hacc⟩ :=
    statement_accounts (n := s.rest.length + 1) s (Nat.lt_succ_self _) hs.spelled
  rw [hr] at ht hacc
  obtain ⟨first, vs, rfl⟩ := List.exists_cons_of_ne_nil (hacc.1 rfl)
  have hrest : s.rest = (first :: vs) ++ s'.rest := ht.rest
  have hlast := List.getLast?_eq_some_getLast (List.cons_ne_nil first vs)
  have hspan := statement_span hrest st s' hr
  have hprev : s'.previous = some ((first :: vs).getLast (by simp)) := by
    rw [show s'.previous = _ from ht.previous, hlast]
    rfl
  have hle := (hrest ▸ hs.ordered).append_left.start_le_stop hlast
  refine ⟨first, first :: vs, _, hrest, rfl, hlast, ?_⟩
  rw [hspan, State.since, hprev]
  simp only [Nat.max_eq_left hle]

theorem nested_succ (hn : Nested n) : Nested (n + 1) := by
  intro b s hs st s' hr hf
  have hcovers := statement_covers hs.sound hr
  have hstep : Clean (statementStep statement) s fun st s' =>
      Derived b s.rest s'.rest (.form st.form) := by
    refine .look ?_
    cases hrest : s.rest with
    | nil => exact .expected
    | cons t us =>
      refine .bind ((form_clean hn hs hrest).mono fun f s₁ hform _ => .look (.pure ?_))
      exact hrest ▸ hform
  rw [statement_eq] at hr
  obtain ⟨f, span⟩ := st
  exact .statement (hstep _ _ hr hf) hcovers

theorem nested (n : Nat) : Nested n := by
  induction n with
  | zero => exact fun hs => absurd hs.few (Nat.not_lt_zero _)
  | succ n ih => exact nested_succ ih

/-- One more round of a program. -/
theorem programStep_clean {xs : List Token} {items : List Item} (hs : Ready n false s)
    (hi : Derived false xs s.rest (.items items)) :
    Clean (programStep statement items) s fun r s' => s.Reaches s' →
      r.Says (fun items => Ready n false s' ∧ Derived false xs s'.rest (.items items))
        fun items => Derived false xs s'.rest (.items items) := by
  refine .bind ((commentItems_clean hs).mono ?_)
  rintro _ s₁ ⟨hs₁, hrest, -, cs, rfl, hcs⟩ h₁
  have hi : Derived false xs s₁.rest (.items (items ++ cs.map Item.comment)) := by
    rw [hrest]
    exact hi.comments hcs
  refine .bind (.acceptAnywhere (fun t us hr hk h₂ => ?_) fun _ => ?_)
  · rw [hr] at hi
    exact .pure fun _ => ⟨hs₁.past hr, hi.separator hk⟩
  · refine .look (.ite (fun _ => .pure fun _ => hi) fun _ => ?_)
    refine .bind ((item_clean (nested n) hs₁ nofun).mono ?_)
    rintro _ s₂ ⟨i, rfl, hitem⟩ h₂
    exact .pure fun _ => ⟨hs₁.reaches h₂, hitem _ _ hi⟩

theorem programItems_clean (hs : Ready n false s) :
    Clean (programItems statement) s fun is s' => Derived false s.rest s'.rest (.items is) :=
  Clean.loop (I := fun items s' => Ready n false s' ∧ Derived false s.rest s'.rest (.items items))
    (fun _ _ hi => programStep_clean hi.1 hi.2) ⟨hs, .nil⟩

/-- A program of which nothing is recorded is derived from all its tokens. -/
theorem readProgram_derived (hs : Ready n false s) (hf : s.readProgram.2.faults = s.faults) :
    Derived false s.rest [] (.items s.readProgram.1.items) := by
  obtain ⟨is, s', hrun, hrest, -⟩ := programLoop_ends [] s
  have hrun : (programItems statement).run s = (some is, s') := hrun
  have hread := readProgram_of_some hrun
  rw [hread] at hf ⊢
  rw [← hrest]
  exact programItems_clean hs is s' hrun (congrArg List.length hf)

end Statements

end PickSyntax.Grammar

namespace PickSyntax

open PickSyntax.Parser PickSyntax.Grammar

/-- A comment that begins before a token of the source ends before it. -/
theorem lex_comments_apart (source : String) : ∀ c ∈ (lex source).comments,
    ∀ t ∈ (lex source).tokens, c.span.start < t.span.start → c.span.stop ≤ t.span.start := by
  intro c hc t ht hlt
  have hstreams := lex_streams source
  have hpos := hstreams.ordered.bound t ht
  have hapart := hstreams.apart c hc t ht
  omega

theorem ready_ofLexing (source : String) (keepComments : Bool) :
    Ready ((lex source).tokens.length + 1) false
      (State.ofLexing (lex source) keepComments) where
  few := Nat.lt_succ_self _
  sound := lex_sound source keepComments
  comments c hc := by
    apply lex_comments_apart source c
    cases keepComments with
    | true => exact hc
    | false => cases hc
  awaits := rfl

/-- The faults that the grammar records on a source. -/
def recordedFaults (source : String) (keepComments : Bool) : List Fault :=
  (State.ofLexing (lex source) keepComments).readProgram.2.faults

/-- A program is derived from all tokens of its source where the grammar records nothing. -/
theorem parse_derived {options : Options} {source : String}
    (h : recordedFaults source options.keepComments = []) :
    Derived false (lex source).tokens [] (.items (parseWith options source).program.items) :=
  readProgram_derived (ready_ofLexing source options.keepComments) h

end PickSyntax
