import PickSyntax.Proofs.Parser.Onward

/-!
# Faults point at edges of tokens

Whatever the grammar reports, it reports at places that it knows from tokens: at a token that is
left, behind the last one taken, from the start of one to the end of another. A state is marked
when all that it knows of places is of this kind, and so are its faults; marked states lead to
marked states, whatever is read. The property passes through every combinator, so it is a class,
and its instances follow the definitions of the parsers. A parser that reports a range of its own
needs to know that the range is one between tokens; that too is an instance.
-/
namespace PickSyntax

/-- An offset at which one of the tokens starts or ends. -/
def IsEdge (tokens : List Token) (offset : Nat) : Prop :=
  ∃ t ∈ tokens, offset = t.span.start ∨ offset = t.span.stop

/-- A range between edges of tokens. -/
class Span.Edged (tokens : List Token) (x : Span) : Prop where
  le : x.start ≤ x.stop
  start : IsEdge tokens x.start
  stop : IsEdge tokens x.stop

namespace Span.Edged
variable {tokens : List Token} {x y : Span}

/-- The empty range at the end of another one. -/
theorem point (h : x.Edged tokens) : (Span.point x.stop).Edged tokens :=
  ⟨Nat.le_refl _, h.stop, h.stop⟩

instance merge [hx : x.Edged tokens] [hy : y.Edged tokens] : (x.merge y).Edged tokens where
  le := by
    have := hx.le
    simp only [merge_start, merge_stop]
    omega
  start := by
    rw [merge_start]
    obtain h | h := Nat.le_total x.start y.start
    · rw [Nat.min_eq_left h]
      exact hx.start
    · rw [Nat.min_eq_right h]
      exact hy.start
  stop := by
    rw [merge_stop]
    obtain h | h := Nat.le_total x.stop y.stop
    · rw [Nat.max_eq_right h]
      exact hy.stop
    · rw [Nat.max_eq_left h]
      exact hx.stop

end Span.Edged

open PickSyntax.Parser PickSyntax.Grammar

/-- The state stands among the tokens, and its faults lie between their edges. -/
class Parser.State.Marked (tokens : List Token) (s : State) : Prop where
  ordered : ∀ t ∈ tokens, t.span.start ≤ t.span.stop
  rest : s.rest <:+ tokens
  previous : ∀ t, s.previous = some t → t ∈ tokens
  /-- Where nothing has been taken, something is left. -/
  unstarted : s.previous = none → s.rest ≠ []
  faults : ∀ f ∈ s.faults, f.span.Edged tokens

/-- A parser that reports only ranges between edges of the tokens. -/
class Marks (tokens : List Token) {α : Type} (p : Parser α) : Prop where
  marked : ∀ s : State, s.Marked tokens → (p.run s).2.Marked tokens

namespace Parser.State.Marked
variable {tokens : List Token} {s : State} {t : Token} {us : List Token}

theorem edged_mem (h : s.Marked tokens) (ht : t ∈ tokens) : t.span.Edged tokens :=
  ⟨h.ordered t ht, ⟨t, ht, .inl rfl⟩, ⟨t, ht, .inr rfl⟩⟩

theorem edged_rest (h : s.Marked tokens) (ht : t ∈ s.rest) : t.span.Edged tokens :=
  h.edged_mem (h.rest.mem ht)

theorem edged_previous (h : s.Marked tokens) (ht : s.previous = some t) : t.span.Edged tokens :=
  h.edged_mem (h.previous t ht)

theorem past (h : s.Marked tokens) (hr : s.rest = t :: us) : (s.past t us).Marked tokens where
  ordered := h.ordered
  rest := (hr ▸ List.suffix_cons t us : us <:+ s.rest).trans h.rest
  previous u hu := by
    cases hu
    exact h.rest.mem (hr ▸ List.mem_cons_self)
  unstarted := nofun
  faults := h.faults

theorem drop (h : s.Marked tokens) (n : Nat) : (s.drop n).Marked tokens := by
  induction n generalizing s with
  | zero => exact h
  | succ n ih =>
    unfold State.drop
    split
    next => exact h
    next t us hr => exact ih (h.past hr)

theorem skipWhile (h : s.Marked tokens) (p : Token → Bool) : (s.skipWhile p).Marked tokens where
  ordered := h.ordered
  rest := (List.dropWhile_suffix p).trans h.rest
  previous t ht := by
    obtain hlast | hprevious := Option.or_eq_some_iff.mp ht
    · exact h.rest.mem ((List.takeWhile_prefix p).mem (List.mem_of_getLast? hlast))
    · exact h.previous t hprevious.2
  unstarted hnone := by
    obtain ⟨hlast, hprevious⟩ := Option.or_eq_none_iff.mp hnone
    have htaken : s.rest.takeWhile p = [] := List.getLast?_eq_none_iff.mp hlast
    have hleft : s.rest.dropWhile p = s.rest := by
      simpa [htaken] using List.takeWhile_append_dropWhile (p := p) (l := s.rest)
    have hne := h.unstarted hprevious
    rwa [← hleft] at hne
  faults := h.faults

theorem report (h : s.Marked tokens) {f : Fault} (hf : f.span.Edged tokens) :
    ((Parser.report f).run s).2.Marked tokens where
  ordered := h.ordered
  rest := h.rest
  previous := h.previous
  unstarted := h.unstarted
  faults g hg := by
    obtain hold | hnew := List.mem_append.mp hg
    · exact h.faults g hold
    · exact List.mem_singleton.mp hnew ▸ hf

/-- Where nothing is left, something has been taken. -/
theorem edged_endSpan (h : s.Marked tokens) (hr : s.rest = []) : s.endSpan.Edged tokens := by
  unfold endSpan
  split
  next hp => exact absurd hr (h.unstarted hp)
  next t hp => exact (h.edged_previous hp).point

theorem edged_unexpected (h : s.Marked tokens) (d : String) :
    (s.unexpected d).span.Edged tokens := by
  unfold unexpected
  split
  next hr => exact h.edged_endSpan hr
  next t us hr =>
    have ht : t.span.Edged tokens := h.edged_rest (hr ▸ List.mem_cons_self)
    split
    · dsimp only
      split
      next => exact ht
      next p hp => exact (h.edged_previous hp).point
    · exact ht

/-- From the start of a range between tokens to the last token taken. -/
instance edged_since [h : s.Marked tokens] {x : Span} [hx : x.Edged tokens] :
    (s.since x.start).Edged tokens := by
  unfold since
  split
  next => exact ⟨Nat.le_refl _, hx.start, hx.start⟩
  next t hp =>
    refine ⟨Nat.le_max_right .., hx.start, ?_⟩
    dsimp only
    obtain hle | hle := Nat.le_total t.span.stop x.start
    · rw [Nat.max_eq_right hle]
      exact hx.start
    · rw [Nat.max_eq_left hle]
      exact (h.edged_previous hp).stop

end Parser.State.Marked

namespace Marks
variable {tokens : List Token} {α β γ ι : Type} {p q : Parser α} {f : α → Parser β}

instance pure (a : α) : Marks tokens (pure a : Parser α) where
  marked _ h := h

instance fail : Marks tokens (fail : Parser α) where
  marked _ h := h

instance enclosing : Marks tokens enclosing where
  marked s h := by rwa [enclosing_state]

instance report (cause : Cause) (x : Span) [hx : x.Edged tokens] :
    Marks tokens (report ⟨cause, x⟩) where
  marked _ h := h.report hx

instance skip (n : Nat) : Marks tokens (skip n) where
  marked _ h := h.drop n

instance next : Marks tokens next where
  marked s h := by
    cases hr : s.rest with
    | nil => simpa [Parser.next, hr] using h
    | cons t us =>
      rw [run_next hr]
      exact h.past hr

instance skipToBoundary : Marks tokens skipToBoundary where
  marked _ h := h.skipWhile _

instance pendingComments : Marks tokens pendingComments where
  marked _ h := ⟨h.ordered, h.rest, h.previous, h.unstarted, h.faults⟩

/-- The second parser may rely on what is known of the value. -/
theorem bind_of {V : α → Prop} [hp : Marks tokens p]
    (hv : ∀ s a s', s.Marked tokens → p.run s = (some a, s') → V a)
    (hf : ∀ a, V a → Marks tokens (f a)) : Marks tokens (p >>= f) where
  marked s hs := by
    have h := hp.marked s hs
    rcases hr : p.run s with ⟨_ | a, s'⟩ <;> rw [hr] at h
    · rwa [run_bind_none hr]
    · rw [run_bind_some hr]
      exact (hf a (hv s a s' hs hr)).marked s' h

instance bind [hp : Marks tokens p] [hf : ∀ a, Marks tokens (f a)] : Marks tokens (p >>= f) :=
  bind_of (fun _ _ _ _ _ => trivial) fun a (_ : True) => hf a

theorem past [Marks tokens p] (hf : ∀ a, Marks tokens (f a)) : Marks tokens (p >>= f) :=
  bind

instance look : Marks tokens look where
  marked _ h := h

/-- The state that is looked at is a marked one. -/
theorem look_bind {f : State → Parser β} (hf : ∀ s : State, s.Marked tokens → Marks tokens (f s)) :
    Marks tokens (Parser.look >>= f) :=
  bind_of (fun _ _ _ hs hr => by cases hr; exact hs) hf

theorem next_bind {f : Token → Parser β}
    (hf : ∀ t, t.span.Edged tokens → Marks tokens (f t)) : Marks tokens (Parser.next >>= f) := by
  refine bind_of (fun s t s' hs hr => ?_) hf
  cases h : s.rest with
  | nil => simp [Parser.next, h] at hr
  | cons u us =>
    rw [run_next h] at hr
    cases hr
    exact hs.edged_rest (h ▸ List.mem_cons_self)

instance ite {c : Prop} [Decidable c] [hp : Marks tokens p] [hq : Marks tokens q] :
    Marks tokens (if c then p else q) := by
  split
  · exact hp
  · exact hq

theorem choose {c : Prop} [Decidable c] (hp : Marks tokens p) (hq : Marks tokens q) :
    Marks tokens (if c then p else q) :=
  ite

instance catchFailure [hp : Marks tokens p] : Marks tokens (catchFailure p) where
  marked := hp.marked

instance attempt [hp : Marks tokens p] : Marks tokens (attempt p) where
  marked s hs := by
    have h := hp.marked s hs
    rcases hr : p.run s with ⟨_ | a, s'⟩ <;> rw [hr] at h
    · rwa [run_attempt_none hr]
    · rwa [run_attempt_some hr]

instance withAngled (b : Bool) [hp : Marks tokens p] : Marks tokens (withAngled b p) where
  marked s hs :=
    have h := hp.marked { s with angled := b }
      ⟨hs.ordered, hs.rest, hs.previous, hs.unstarted, hs.faults⟩
    ⟨h.ordered, h.rest, h.previous, h.unstarted, h.faults⟩

instance inBlock (b : Block) [hp : Marks tokens p] : Marks tokens (inBlock b p) where
  marked s hs :=
    have h := hp.marked { s with blocks := b :: s.blocks }
      ⟨hs.ordered, hs.rest, hs.previous, hs.unstarted, hs.faults⟩
    ⟨h.ordered, h.rest, h.previous, h.unstarted, h.faults⟩

instance loop {step : β → Parser (Step β γ)} [hstep : ∀ v, Marks tokens (step v)] (v : β) :
    Marks tokens (loop step v) where
  marked s hs := by
    induction hk : s.rest.length using Nat.strongRecOn generalizing v s with
    | ind k ih =>
      have h := (hstep v).marked s hs
      rw [loop_run]
      rcases hr : (step v).run s with ⟨_ | v' | c, s'⟩ <;> rw [hr] at h
      · exact h
      · dsimp only
        split
        next hlt => exact ih _ (hk ▸ hlt) v' s' h rfl
        next => exact h
      · exact h

/-- A knot is known by its body around nested parsers that run behind a token. -/
theorem knot {body : (ι → Parser α) → ι → Parser α}
    (hbody : ∀ nested, (∀ i, Marks tokens (nested i)) → ∀ i, Marks tokens (body nested i)) (i : ι) :
    Marks tokens (knot body i) where
  marked s hs := by
    induction hk : s.rest.length using Nat.strongRecOn generalizing i s with
    | ind k ih =>
      rw [knot_run]
      refine (hbody _ (fun j => ⟨fun s' hs' => ?_⟩) i).marked s hs
      unfold below
      dsimp only
      split
      next hlt => exact ih _ (hk ▸ hlt) j s' hs' rfl
      next => exact hs'

instance reportExpected (d : String) : Marks tokens (reportExpected d) where
  marked _ hs := hs.report (hs.edged_unexpected d)

instance expected (d : String) : Marks tokens (expected d : Parser α) := by
  unfold Parser.expected
  infer_instance

instance accept (k : TokenKind) : Marks tokens (accept k) := by
  unfold Parser.accept
  infer_instance

instance acceptAnywhere (k : TokenKind) : Marks tokens (acceptAnywhere k) := by
  unfold Parser.acceptAnywhere
  infer_instance

instance acceptSymbol (y : Symbol) : Marks tokens (acceptSymbol y) := accept _

instance acceptKeyword (k : Keyword) : Marks tokens (acceptKeyword k) := accept _

instance require (k : TokenKind) (d : String) : Marks tokens (require k d) := by
  unfold Parser.require
  infer_instance

instance requireSymbol (y : Symbol) : Marks tokens (requireSymbol y) := require _ _

instance requireKeyword (k : Keyword) : Marks tokens (requireKeyword k) := require _ _

instance name (d : String) : Marks tokens (name d) := by
  unfold Parser.name
  infer_instance

instance afterKeyword? (k : Keyword) [Marks tokens p] : Marks tokens (afterKeyword? k p) := by
  unfold Parser.afterKeyword?
  infer_instance

instance afterComma? [Marks tokens p] : Marks tokens (afterComma? p) := by
  unfold Parser.afterComma?
  infer_instance

instance commaList [Marks tokens p] : Marks tokens (commaList p) := by
  unfold Parser.commaList Parser.commaStep
  infer_instance

instance recover (left : Nat) : Marks tokens (recover left) := by
  unfold Parser.recover
  infer_instance

instance orSkip [Marks tokens p] : Marks tokens (orSkip p) := by
  refine @bind _ _ _ _ _ inferInstance fun o => ?_
  cases o <;> infer_instance

end Marks

namespace Grammar
variable {tokens : List Token}

section Nested
variable {nested : AtLevel} [∀ level, Marks tokens (nested level)]

instance chainStep_marks (level : Nat) (left : Expr) :
    Marks tokens (chainStep nested level left) := by
  refine @Marks.bind _ _ _ _ _ inferInstance fun s => ?_
  split <;> infer_instance

instance chain_marks (level : Nat) (left : Expr) : Marks tokens (chain nested level left) :=
  Marks.loop left

instance arguments_marks : Marks tokens (arguments nested) := by
  unfold arguments
  infer_instance

instance oneOrTwo_marks : Marks tokens (oneOrTwo nested) := by
  unfold oneOrTwo
  infer_instance

instance enclosed_marks (closing : Symbol) : Marks tokens (enclosed nested closing) := by
  unfold enclosed
  infer_instance

instance subscripts_marks : Marks tokens (subscripts nested) := by
  unfold subscripts
  infer_instance

instance angleSubscripts_marks : Marks tokens (angleSubscripts nested) := by
  unfold angleSubscripts
  infer_instance

instance named_marks : Marks tokens (named nested) := by
  refine @Marks.bind _ _ _ _ _ inferInstance fun t => ?_
  refine @Marks.bind _ _ _ _ _ inferInstance fun s => ?_
  split
  · infer_instance
  · refine @Marks.bind _ _ _ _ _ inferInstance fun o => ?_
    split <;> infer_instance
  · infer_instance
  · infer_instance

instance cursor_marks : Marks tokens (cursor nested) := by
  unfold cursor
  infer_instance

instance parenthesized_marks : Marks tokens (parenthesized nested) := by
  unfold parenthesized
  infer_instance

instance invalidOperand_marks (t : Token) [t.span.Edged tokens] :
    Marks tokens (invalidOperand t) := by
  unfold invalidOperand
  infer_instance

instance primary_marks : Marks tokens (primary nested) := by
  refine Marks.look_bind fun s hs => ?_
  split
  next => infer_instance
  next t us hr =>
    have : t.span.Edged tokens := hs.edged_rest (hr ▸ List.mem_cons_self)
    repeat' split
    all_goals infer_instance

instance operand_marks : Marks tokens (operand nested) := by
  refine @Marks.bind _ _ _ _ _ inferInstance fun s => ?_
  split <;> infer_instance

instance expressionStep_marks (level : Nat) : Marks tokens (expressionStep nested level) := by
  unfold expressionStep
  infer_instance

end Nested

instance expressionAt_marks (level : Nat) : Marks tokens (expressionAt level) :=
  Marks.knot (fun _ _ _ => inferInstance) level

instance expression_marks : Marks tokens expression := expressionAt_marks 0

instance expression?_marks : Marks tokens expression? := by
  unfold expression?
  infer_instance

instance parameters_marks : Marks tokens parameters := by
  unfold parameters
  infer_instance

instance subroutine_marks : Marks tokens subroutine := by
  unfold subroutine
  infer_instance

instance arrayBounds_marks : Marks tokens arrayBounds := by
  unfold arrayBounds
  infer_instance

instance dim_marks : Marks tokens dim := by
  unfold dim
  infer_instance

instance commonBlock_marks : Marks tokens commonBlock := by
  unfold commonBlock
  infer_instance

instance common_marks : Marks tokens common := by
  unfold common
  infer_instance

instance equateSense_marks : Marks tokens equateSense := by
  unfold equateSense
  infer_instance

instance equate_marks : Marks tokens equate := by
  unfold equate
  infer_instance

instance mat_marks : Marks tokens mat := by
  unfold mat
  infer_instance

instance target_marks : Marks tokens target := by
  refine @Marks.bind _ _ _ _ _ inferInstance fun s => ?_
  split <;> infer_instance

instance goKind_marks : Marks tokens goKind := by
  unfold goKind
  infer_instance

instance jump_marks (kind : JumpKind) : Marks tokens (jump kind) := by
  unfold jump
  infer_instance

instance go_marks : Marks tokens go := by
  unfold go
  infer_instance

instance jumpOnKind_marks : Marks tokens jumpOnKind := by
  unfold jumpOnKind
  infer_instance

instance jumpOn_marks : Marks tokens jumpOn := by
  unfold jumpOn
  infer_instance

instance returnTo_marks : Marks tokens returnTo := by
  unfold returnTo
  infer_instance

instance entrySeparator_marks : Marks tokens entrySeparator := by
  unfold entrySeparator
  infer_instance

instance printStep_marks (items : List PrintEntry) : Marks tokens (printStep items) := by
  refine @Marks.bind _ _ _ _ _ inferInstance fun s => @Marks.ite _ _ _ _ _ _ ?_ inferInstance
  refine @Marks.bind _ _ _ _ _ inferInstance fun e => ?_
  refine @Marks.bind _ _ _ _ _ inferInstance fun o => ?_
  split <;> infer_instance

instance printList_marks : Marks tokens printList := by
  unfold printList
  infer_instance

instance print_marks : Marks tokens print := by
  unfold print
  infer_instance

instance crt_marks : Marks tokens crt := by
  unfold crt
  infer_instance

instance inputLength_marks : Marks tokens inputLength := by
  unfold inputLength
  infer_instance

instance data_marks : Marks tokens data := by
  unfold data
  infer_instance

instance switch_marks (device : Device) : Marks tokens (switch device) := by
  unfold switch
  infer_instance

instance recordPath_marks (ofAttr : Bool) : Marks tokens (recordPath ofAttr) := by
  refine @Marks.bind _ _ _ _ _ inferInstance fun a => ?_
  refine @Marks.bind _ _ _ _ _ inferInstance fun b => ?_
  split
  · infer_instance
  · refine @Marks.bind _ _ _ _ _ inferInstance fun c => ?_
    split <;> infer_instance

instance destination_marks : Marks tokens destination := by
  unfold destination
  infer_instance

instance writeTape_marks : Marks tokens writeTape := by
  unfold writeTape
  infer_instance

instance select_marks : Marks tokens select := by
  unfold select
  infer_instance

instance inputTrap_marks : Marks tokens inputTrap := by
  unfold inputTrap
  infer_instance

instance execute_marks : Marks tokens execute := by
  unfold execute
  infer_instance

instance calledName_marks : Marks tokens calledName := by
  unfold calledName
  infer_instance

instance callArguments_marks : Marks tokens callArguments := by
  unfold callArguments
  infer_instance

instance call_marks : Marks tokens call := by
  unfold call
  infer_instance

instance operandOf_marks (verb : OperandVerb) : Marks tokens (operandOf verb) := by
  unfold operandOf
  infer_instance

instance optionalOf_marks (verb : OptionalVerb) : Marks tokens (optionalOf verb) := by
  unfold optionalOf
  infer_instance

instance assignmentOrExpression_marks (opener : Token) :
    Marks tokens (assignmentOrExpression opener) := by
  unfold assignmentOrExpression
  infer_instance

instance beginStatement_marks : Marks tokens beginStatement where
  marked _ h := ⟨h.ordered, h.rest, h.previous, h.unstarted, h.faults⟩

instance endStatement_marks (left : Nat) : Marks tokens (endStatement left) := by
  unfold endStatement
  infer_instance

instance commentItems_marks : Marks tokens commentItems := by
  unfold commentItems
  infer_instance

section Statements
variable {statement : Parser Statement} [Marks tokens statement]

instance item_marks : Marks tokens (item statement) := by
  refine @Marks.bind _ _ _ _ _ inferInstance fun s => ?_
  split
  · infer_instance
  · refine @Marks.bind _ _ _ _ _ inferInstance fun _ => ?_
    refine @Marks.bind _ _ _ _ _ inferInstance fun o => ?_
    split <;> infer_instance

instance bodyStep_marks (block : Block) (items : List Item) :
    Marks tokens (bodyStep statement block items) := by
  unfold bodyStep
  infer_instance

instance body_marks (block : Block) : Marks tokens (body statement block) := by
  unfold body
  infer_instance

instance programStep_marks (items : List Item) : Marks tokens (programStep statement items) := by
  unfold programStep
  infer_instance

instance programItems_marks : Marks tokens (programItems statement) := by
  unfold programItems
  infer_instance

instance clauseStatement_marks : Marks tokens (clauseStatement statement) := by
  unfold clauseStatement
  infer_instance

instance onErrorClause_marks : Marks tokens (onErrorClause statement) := by
  unfold onErrorClause
  infer_instance

instance lockedClause_marks : Marks tokens (lockedClause statement) := by
  unfold lockedClause
  infer_instance

section Owners
variable {owner : Owner} [owner.span.Edged tokens]

instance reportUnclosed_marks (d : String) : Marks tokens (reportUnclosed owner d) := by
  unfold reportUnclosed
  infer_instance

instance closeBlock_marks (d : String) (stop : BodyEnd) :
    Marks tokens (closeBlock owner d stop) := by
  cases stop <;> (unfold closeBlock; infer_instance)

instance elseBlock_marks : Marks tokens (elseBlock statement owner) := by
  unfold elseBlock
  infer_instance

instance elseBranch_marks : Marks tokens (elseBranch statement owner) := by
  unfold elseBranch
  infer_instance

instance thenBlock_marks : Marks tokens (thenBlock statement owner) := by
  refine .past fun _ => .choose (.past fun _ => ?_) (.past fun _ => .pure _)
  refine .choose (.past fun _ => .past fun _ => .choose ?_ (.pure _)) (.past fun _ => ?_)
  · exact .past fun _ => .pure _
  · exact .past fun _ => .pure _

instance closeInline_marks (clause : Clause) : Marks tokens (closeInline clause) := by
  unfold closeInline
  infer_instance

instance thenInline_marks : Marks tokens (thenInline statement owner) := by
  unfold thenInline
  infer_instance

instance clause?_marks : Marks tokens (clause? statement owner) := by
  unfold clause?
  infer_instance

instance requiredClause_marks : Marks tokens (requiredClause statement owner) := by
  refine @Marks.bind _ _ _ _ _ inferInstance fun o => ?_
  cases o with
  | some c => infer_instance
  | none => exact Marks.look_bind fun s _ => inferInstance

instance loopGuard_marks (sense : GuardSense) : Marks tokens (loopGuard sense) := by
  unfold loopGuard
  infer_instance

instance forGuard_marks : Marks tokens forGuard := by
  refine @Marks.bind _ _ _ _ _ inferInstance fun s => ?_
  split <;> infer_instance

instance nextName_marks : Marks tokens nextName := by
  unfold nextName
  infer_instance

instance loopRest_marks (sense : GuardSense) : Marks tokens (loopRest statement owner sense) := by
  unfold loopRest
  infer_instance

instance caseArm_marks (leading : List Item) : Marks tokens (caseArm statement leading) := by
  unfold caseArm
  infer_instance

instance abandonCases_marks (cases : List CaseArm) : Marks tokens (abandonCases owner cases) := by
  unfold abandonCases
  infer_instance

instance caseArmStep_marks (p : CaseProgress) : Marks tokens (caseArmStep statement owner p) := by
  refine @Marks.bind _ _ _ _ _ inferInstance fun r => ?_
  dsimp only
  split <;> infer_instance

instance caseStep_marks (p : CaseProgress) : Marks tokens (caseStep statement owner p) := by
  refine .past fun cs => .past fun _ => .choose (.pure _) (.past fun s => ?_)
  refine .choose (abandonCases_marks _) (.choose (.past fun _ => .pure _) ?_)
  refine .choose (caseArmStep_marks _) (.choose (abandonCases_marks _) ?_)
  exact .past fun _ => .past fun _ => .past fun _ => .pure _

instance caseArms_marks : Marks tokens (caseArms statement owner) := by
  unfold caseArms
  infer_instance

end Owners

section Forms
variable {opener : Token} [opener.span.Edged tokens]

instance ifThen_marks : Marks tokens (ifThen statement opener) := by
  unfold ifThen
  infer_instance

instance forNext_marks : Marks tokens (forNext statement opener) := by
  unfold forNext
  infer_instance

instance loopRepeat_marks : Marks tokens (loopRepeat statement opener) := by
  refine @Marks.bind _ _ _ _ _ inferInstance fun r => ?_
  refine @Marks.ite _ _ _ _ _ _ ?_ inferInstance
  refine @Marks.bind _ _ _ _ _ inferInstance fun s => ?_
  split <;> infer_instance

/-- The owner of a `BEGIN CASE` covers two tokens. -/
instance beginCase_marks : Marks tokens (beginCase statement opener) := by
  refine Marks.bind_of (V := fun word => word.span.Edged tokens) (fun s word s' hs hr => ?_)
    fun word _ => inferInstance
  obtain ⟨us, hrest, -⟩ := taken_of_require hr
  exact hs.edged_rest (hrest ▸ List.mem_cons_self)

/-- The owner of an `INPUT@` reaches to the last token taken. -/
instance inputAt_marks : Marks tokens (inputAt statement opener) := by
  unfold inputAt
  iterate 9 refine @Marks.bind _ _ _ _ _ inferInstance fun _ => ?_
  exact Marks.look_bind fun s _ => inferInstance

instance input_marks : Marks tokens (input statement opener) := by
  unfold input
  infer_instance

instance openFile_marks : Marks tokens (openFile statement opener) := by
  refine @Marks.bind _ _ _ _ _ inferInstance fun a => ?_
  refine @Marks.bind _ _ _ _ _ inferInstance fun b => ?_
  cases b <;> infer_instance

instance read_marks (mode : RecordMode) : Marks tokens (read statement mode opener) := by
  unfold read
  infer_instance

instance write_marks (mode : RecordMode) : Marks tokens (write statement mode) := by
  unfold write
  infer_instance

instance delete_marks : Marks tokens (delete statement opener) := by
  unfold delete
  infer_instance

instance receive_marks (feed : Feed) : Marks tokens (receive statement feed opener) := by
  unfold receive
  infer_instance

instance lock_marks : Marks tokens (lock statement opener) := by
  unfold lock
  infer_instance

instance clearFile_marks : Marks tokens (clearFile statement) := by
  unfold clearFile
  infer_instance

instance matRead_marks (locking : Bool) : Marks tokens (matRead statement locking opener) := by
  unfold matRead
  infer_instance

instance matWrite_marks (locking : Bool) : Marks tokens (matWrite statement locking) := by
  unfold matWrite
  infer_instance

instance locate_marks : Marks tokens (locate statement opener) := by
  unfold locate
  infer_instance

instance strayTerminator_marks (terminator word : String) (span : Span) [span.Edged tokens] :
    Marks tokens (strayTerminator terminator word span) := by
  unfold strayTerminator
  infer_instance

/-- A stray `END CASE` is reported from its first word to its second. -/
theorem endUnit_marked {s : State} (hs : s.Marked tokens) (hend : s.isAt (.keyword .END) = true) :
    ((endUnit opener).run s).2.Marked tokens := by
  rw [endUnit, run_bind_some (run_look s)]
  by_cases hlone : s.atLoneEnd = true
  · rw [if_pos hlone]
    exact Marks.marked s hs
  rw [if_neg hlone]
  have hcase : s.isBeforeKeyword .CASE = true := by simpa [State.atLoneEnd, hend] using hlone
  obtain ⟨t, word, us, hr⟩ : ∃ t word us, s.rest = t :: word :: us := by
    unfold State.isBeforeKeyword at hcase
    split at hcase
    next t word us hr => exact ⟨t, word, us, hr⟩
    next => cases hcase
  have : word.span.Edged tokens := hs.edged_rest (by simp [hr])
  dsimp only
  rw [hr]
  exact Marks.marked s hs

end Forms

theorem led_marks {p : Token → Parser Form}
    (hp : ∀ t : Token, t.span.Edged tokens → Marks tokens (p t)) : Marks tokens (led p) :=
  Marks.next_bind hp

theorem keywordForm_marked {s : State} {t : Token} {us : List Token} {k : Keyword}
    (hs : s.Marked tokens) (hr : s.rest = t :: us) (hk : t.kind = .keyword k) :
    ((keywordForm statement k t).run s).2.Marked tokens := by
  have : t.span.Edged tokens := hs.edged_rest (hr ▸ List.mem_cons_self)
  cases k with
  | END => exact endUnit_marked hs (by simp [State.isAt, State.kind?, hr, hk])
  | _ =>
    unfold keywordForm
    first
      | exact (led_marks fun _ _ => inferInstance).marked s hs
      | exact Marks.marked s hs

theorem form_marked {s : State} {t : Token} {us : List Token} (hs : s.Marked tokens)
    (hr : s.rest = t :: us) : ((form statement t).run s).2.Marked tokens := by
  unfold form
  split
  next hk => exact keywordForm_marked hs hr hk
  next => exact Marks.marked s hs

instance statementStep_marks : Marks tokens (statementStep statement) where
  marked s hs := by
    rw [statementStep, run_bind_some (run_look s)]
    cases hr : s.rest with
    | nil => exact Marks.marked s hs
    | cons t us =>
      have h : ((form statement t).run s).2.Marked tokens := form_marked hs hr
      dsimp only
      rcases hf : (form statement t).run s with ⟨_ | f, s'⟩ <;> rw [hf] at h
      · rwa [run_bind_none hf]
      · rwa [run_bind_some hf]

end Statements

instance statement_marks : Marks tokens statement :=
  Marks.knot (fun _ h _ => @statementStep_marks _ _ (h ())) ()

end Grammar
end PickSyntax
