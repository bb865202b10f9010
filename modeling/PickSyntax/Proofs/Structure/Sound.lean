import PickSyntax.Analysis
import PickSyntax.Proofs.Expression.Beginning
import PickSyntax.Proofs.Expression.Climbing
import PickSyntax.Proofs.Parser.Ensures
import PickSyntax.Proofs.Parser.Progress
import PickSyntax.Proofs.Tree.Proper

/-!
# What is read is sound

The parsers promise sound values. Of the expressions they pass on what the expression parser
promises, so what holds of the nodes of every expression that is read holds of the nodes of
every expression in the tree. A promise is about successes, and there are many ways to succeed:
on an erroneous line, in a block that is never closed, after a guard that was left out. None of
them needs a case of its own, since each yields its value through the same rules.

What an expression is like may depend on where its statement begins. A keyword leads inside its
statement, and from there on no expression is the first thing that it holds; only an assignment
and a bare expression begin with one. Behind its last own expression a form may go on with nested
statements, which begin anew.

Only the print list needs to know more of where it stands. Its colon is an operator whenever an
operand follows on the line, so the list reads one only where it has to end.
-/
namespace PickSyntax.Grammar

open PickSyntax.Parser

variable {tokens : List Token} {inside : Bool} {E : Nat → Expr → Prop}

section Nested
variable {nested : AtLevel} [∀ level, Onward (nested level)]
variable [∀ level, Steady inside (nested level)] {Q : Expr → Prop}
variable (hn : ∀ level, EnsuresFrom inside tokens (nested level) Q)
include hn

theorem arguments_promises :
    EnsuresFrom inside tokens (arguments nested) fun args => ∀ e ∈ args, Q e := by
  refine .withAngled (.past fun b => .ite (fun _ => .pure nofun) fun _ => ?_)
  exact .bind (hn 0).commaList fun args h => .past fun _ => .pure h.2

theorem oneOrTwo_promises : EnsuresFrom inside tokens (oneOrTwo nested) fun es =>
    ∀ e ∈ es.1 :: es.2.toList, Q e := by
  refine .bind (hn 0) fun a ha => .bind (hn 0).afterComma fun b hb => .pure ?_
  simpa using ⟨ha, hb⟩

theorem enclosed_promises (closing : Symbol) :
    EnsuresFrom inside tokens (enclosed nested closing) fun es =>
      ∀ e ∈ es.1 :: es.2.toList, Q e :=
  .withAngled (.bind (oneOrTwo_promises hn) fun _ h => .past fun _ => .pure h)

theorem subscripts_promises : EnsuresFrom inside tokens (subscripts nested) fun es =>
    ∀ e ∈ es.1 :: (es.2.1.toList ++ es.2.2.toList), Q e := by
  refine .bind (hn 0) fun a ha => .past fun comma => .ite (fun _ => ?_) fun _ => .pure ?_
  · refine .bind (hn 0) fun b hb => .bind (hn 0).afterComma fun c hc => .pure ?_
    simpa using ⟨ha, hb, hc⟩
  · simpa using ha

end Nested

/-- A form to which nothing is attached. -/
theorem sound_line {f : Form} (h : f.attachments? = some .none) (hf : f.OperandsProper)
    (he : ∀ e ∈ f.operands, e.Held E) : f.Sound E :=
  Form.sound_of_attachments h hf he .none

theorem subroutine_promises : Ensures tokens subroutine (Form.Sound E) := by
  refine .look fun s => .ite (fun _ => ?_) fun _ => .pure (sound_line rfl (fun _ => rfl) nofun)
  exact .past fun unit => .past fun params => .pure (sound_line rfl nofun nofun)

theorem common_promises : Ensures tokens common (Form.Sound E) :=
  .past fun _ => .bind (EnsuresFrom.any.commaList) fun _ h => .pure (sound_line rfl h.1 nofun)

theorem jump_promises (kind : JumpKind) : Ensures tokens (jump kind) (Form.Sound E) :=
  .past fun _ => .pure (sound_line rfl trivial nofun)

theorem go_promises : Ensures tokens go (Form.Sound E) := .past jump_promises

theorem returnTo_promises : Ensures tokens returnTo (Form.Sound E) :=
  .past fun _ => .pure (sound_line rfl trivial nofun)

theorem switch_promises (device : Device) : Ensures tokens (switch device) (Form.Sound E) := by
  refine .past fun on => .ite (fun _ => .pure (sound_line rfl trivial nofun)) fun _ => ?_
  exact .past fun off => .ite (fun _ => .pure (sound_line rfl trivial nofun)) fun _ => .expected

theorem strayTerminator_promises {terminator word : String} {span : Span} :
    Ensures tokens (strayTerminator terminator word span) (Form.Sound E) :=
  .past fun _ => .fail

theorem endUnit_promises (opener : Token) : Ensures tokens (endUnit opener) (Form.Sound E) := by
  refine .look fun s => .ite (fun _ => .past fun _ => .pure ?_) fun _ => ?_
  · exact fun _ => ⟨⟨trivial, nofun⟩, .nil⟩
  · exact .past fun _ => .past fun _ => .fail

theorem commentItems_promises : Ensures tokens commentItems (Item.SoundAll E) :=
  .past fun cs => .pure (Item.soundAll_comments cs)

section Clauses
variable {nested : Parser Statement} [Onward nested]
variable (hn : Ensures tokens nested (Statement.Sound E))
include hn

theorem item_promises : Ensures tokens (item nested) fun o => Item.SoundAll E o.toList := by
  refine .look fun s => ?_
  cases label? s with
  | some l => exact .past fun _ => .pure .nil
  | none =>
    refine .past fun _ => .bind hn.catchFailure fun o ho => ?_
    cases o with
    | none => exact .past fun _ => .pure .nil
    | some st => exact .past fun _ => .pure (Item.soundAll_statement (ho st rfl))

theorem bodyStep_promises (block : Block) {items : List Item} (h : Item.SoundAll E items) :
    Ensures tokens (bodyStep nested block items)
      (·.Says (Item.SoundAll E) fun r => Item.SoundAll E r.1) := by
  refine .bind (commentItems_promises (E := E)) fun cs hcs => .past fun separator => ?_
  have h := h.append hcs
  refine .ite (fun _ => .pure h) fun _ => .look fun s => .ite (fun _ => .pure h) fun _ => ?_
  refine .ite (fun _ => .pure h) fun _ => .past fun outer => .ite (fun _ => .pure h) fun _ => ?_
  exact .bind (item_promises hn) fun o ho => .pure (h.append ho)

theorem body_promises (block : Block) :
    Ensures tokens (body nested block) fun r => Item.SoundAll E r.1 :=
  .inBlock (.loop (fun _ h => bodyStep_promises hn block h) .nil)

omit [Onward nested] in
theorem clauseStatement_promises : Ensures tokens (clauseStatement nested) (Statement.Sound E) :=
  .look fun _ => .ite (fun _ => .past fun _ => hn) fun _ => .expected

theorem onErrorClause_promises :
    Ensures tokens (onErrorClause nested) fun o => ∀ st ∈ o, st.Sound E := by
  refine .look fun s => .ite (fun _ => ?_) fun _ => .pure (by simp)
  exact .past fun _ => .bind (clauseStatement_promises hn) fun st h => .pure (by simpa using h)

theorem lockedClause_promises :
    Ensures tokens (lockedClause nested) fun o => ∀ st ∈ o, st.Sound E :=
  (clauseStatement_promises hn).afterKeyword

variable {owner : Owner}

theorem elseBlock_promises : Ensures tokens (elseBlock nested owner) (Item.SoundAll E) :=
  .bind (body_promises hn .elseBody) fun _ h => .past fun _ => .pure h

theorem elseBranch_promises : Ensures tokens (elseBranch nested owner) fun r =>
    Item.SoundAll E r.1 ∧ (r.2 = .inline → ∃ st, r.1 = [.statement st]) := by
  refine .look fun s => .ite (fun _ => ?_) fun _ => ?_
  · refine .bind (clauseStatement_promises hn) fun st h => .pure ?_
    exact ⟨Item.soundAll_statement h, fun _ => ⟨st, rfl⟩⟩
  · exact .bind (elseBlock_promises hn) fun items h => .pure ⟨h, nofun⟩

omit hn in
/-- A block may hold any items in its branches. -/
theorem sound_block {thenBody elseBody : Option (List Item)}
    (hb : thenBody.isSome ∨ elseBody.isSome)
    (h : Item.SoundAll E (Clause.items ⟨thenBody, elseBody, .block⟩)) :
    Clause.Sound E ⟨thenBody, elseBody, .block⟩ :=
  ⟨⟨hb, nofun⟩, h⟩

theorem thenBlock_promises : Ensures tokens (thenBlock nested owner) (Clause.Sound E) := by
  refine .bind (body_promises hn .thenBody) fun r h => ?_
  have hthen : Clause.Sound E ⟨some r.1, none, .block⟩ := sound_block (by simp) (by simpa using h)
  refine .ite (fun _ => .look fun s => .ite (fun _ => ?_) fun _ => ?_) fun _ => ?_
  · refine .past fun _ => .past fun otherwise => .ite (fun _ => ?_) fun _ => .pure hthen
    refine .bind (elseBranch_promises hn) fun other ho => .pure (sound_block (by simp) ?_)
    simpa using h.append ho.1
  · refine .past fun _ => .bind (elseBlock_promises hn) fun other ho => ?_
    refine .pure (sound_block (by simp) ?_)
    simpa using h.append ho
  · exact .past fun _ => .pure hthen

omit hn in
theorem closeInline_promises {c : Clause} (h : c.Sound E) :
    Ensures tokens (closeInline c) (Clause.Sound E) := by
  refine .look fun s => .ite (fun _ => .past fun _ => .pure ?_) fun _ => .pure h
  exact sound_block h.1.branch h.2

theorem thenInline_promises : Ensures tokens (thenInline nested owner) (Clause.Sound E) := by
  refine .bind (clauseStatement_promises hn) fun st hst => .past fun otherwise => ?_
  have hthen := Item.soundAll_statement hst
  refine .ite (fun _ => .bind (elseBranch_promises hn) fun other ho => ?_) fun _ => ?_
  · refine closeInline_promises ⟨⟨by simp, fun hl is his => ?_⟩, by simpa using hthen.append ho.1⟩
    obtain his | his := his <;> cases his
    · exact ⟨st, rfl⟩
    · exact ho.2 hl
  · refine closeInline_promises ⟨⟨by simp, fun _ is his => ?_⟩, by simpa using hthen⟩
    obtain his | his := his <;> cases his
    exact ⟨st, rfl⟩

theorem clause?_promises : Ensures tokens (clause? nested owner) fun o => ∀ c ∈ o, c.Sound E := by
  refine .past fun thenNext => .ite (fun _ => ?_) fun _ => ?_
  · refine .look fun s => .ite (fun _ => ?_) fun _ => ?_
    · exact .bind (thenInline_promises hn) fun c h => .pure (by simpa using h)
    · exact .bind (thenBlock_promises hn) fun c h => .pure (by simpa using h)
  · refine .past fun elseNext => .ite (fun _ => ?_) fun _ => .pure (by simp)
    refine .bind (elseBranch_promises hn) fun other ho => .bind (closeInline_promises ?_) fun c h =>
      .pure (by simpa using h)
    refine ⟨⟨by simp, fun hl is his => ?_⟩, by simpa using ho.1⟩
    obtain his | his := his <;> cases his
    exact ho.2 hl

theorem requiredClause_promises :
    Ensures tokens (requiredClause nested owner) (Clause.Sound E) := by
  refine .bind (clause?_promises hn) fun o ho => ?_
  cases o with
  | some c => exact .pure (ho c rfl)
  | none => exact .look fun s => .past fun _ => .fail

end Clauses

theorem held_guard {o : Option LoopGuard} (h : ∀ g ∈ o, g.condition.Held E) :
    ∀ e ∈ (o.map LoopGuard.condition).toList, e.Held E := by
  cases o with
  | none => simp
  | some g => simpa using h

/-- A form that is a block has bodies, and expressions outside of them. -/
theorem sound_forNext {counter : String} {first limit : Expr} {step : Option Expr}
    {guard : Option LoopGuard} {is : List Item} {next : Option String}
    (he : ∀ e ∈ first :: limit :: (step.toList ++ (guard.map LoopGuard.condition).toList),
      e.Held E)
    (h : Item.SoundAll E is) : Form.Sound E (.forNext counter first limit step guard is next) :=
  fun start => ⟨⟨trivial, nofun⟩, AllSound.append (.held fun e hmem => he e hmem start) h⟩

theorem sound_loop {before after : List Item} {guard : Option LoopGuard}
    (hb : Item.SoundAll E before) (hg : ∀ g ∈ guard, g.condition.Held E)
    (ha : Item.SoundAll E after) : Form.Sound E (.loop before guard after) :=
  fun start => ⟨⟨trivial, nofun⟩, AllSound.append hb (@AllSound.append _ [] _ _ _
    (.held fun e hmem => held_guard hg e hmem start) ha)⟩

/-- What a `BEGIN CASE` has read. -/
structure SoundProgress (E : Nat → Expr → Prop) (p : CaseProgress) : Prop where
  leading : Item.SoundAll E p.leading
  cases : CaseArm.SoundAll E p.cases

theorem abandonCases_promises {owner : Owner} {cases : List CaseArm}
    (h : CaseArm.SoundAll E cases) :
    Ensures tokens (abandonCases owner cases) (·.Says (SoundProgress E) (CaseArm.SoundAll E)) :=
  .past fun _ => .pure h

/-- The block goes on after a clause that ended properly. -/
theorem afterArm_promises {owner : Owner} {p : CaseProgress} (h : SoundProgress E p)
    (stop : BodyEnd) : Ensures tokens (match stop with
      | .closed => pure (.more p)
      | .interrupted | .exhausted => abandonCases owner p.cases)
      (·.Says (SoundProgress E) (CaseArm.SoundAll E)) := by
  cases stop with
  | closed => exact .pure h
  | interrupted | exhausted => exact abandonCases_promises h.cases

/-- Where an operand follows a colon on its line, the colon is an operator. -/
theorem expressionNext_behind_colon {s : State} {c : Token} {us : List Token}
    (hr : s.rest = c :: us) (hc : c.kind = .symbol .colon) (hl : c.lineStart = false)
    (hstop : infixAt? s.angled s.rest = none) : (s.past c us).expressionNext = false := by
  have hop : binaryAt? s.angled (c :: us) = some (.concat, 1) := by
    simp [binaryAt?, hl, hc, binaryOfSymbol?]
  rw [hr, infixAt?, hop] at hstop
  cases us with
  | nil => rfl
  | cons u us => simpa [State.expressionNext, State.past] using hstop

/-- No infix operator is left behind an expression. -/
theorem expression_stops (s : State) :
    Returns expression s fun _ s' => infixAt? s'.angled s'.rest = none := by
  intro e s' hr
  obtain ⟨ts, -, -, h⟩ := (expressionAt_meets 0 s).yields e s' hr
  refine Option.eq_none_iff_forall_ne_some.mpr fun found hop => ?_
  have hlevel := h.stops found.1 found.2 hop
  exact absurd (level_pos found.1) (Nat.not_lt_of_le hlevel)

theorem entrySeparator_returns {s : State} (hstop : infixAt? s.angled s.rest = none) :
    Returns entrySeparator s fun o s' => o = some .colon → s'.expressionNext = false := by
  refine Returns.bind fun comma s₁ h₁ => Returns.ite (fun _ => .pure nofun) fun hcomma => ?_
  simp only [Bool.not_eq_true] at hcomma
  subst hcomma
  obtain rfl := accept_returns _ s false s₁ h₁
  refine Returns.bind fun colon s₂ h₂ => Returns.ite (fun hcolon => ?_) fun _ => .pure nofun
  subst hcolon
  obtain ⟨c, us, hr, hc, hl, rfl⟩ := accept_returns _ s₁ true s₂ h₂
  exact .pure fun _ => expressionNext_behind_colon hr hc hl hstop

/-- What has been read of a print list: it goes on behind commas, and behind a colon no operand
is next. -/
structure Listing (tokens : List Token) (E : Nat → Expr → Prop) (items : List PrintEntry)
    (s : State) : Prop where
  within : s.Within true tokens
  sound : ∀ e ∈ items, e.expr.Held E
  commas : ∀ e ∈ items.dropLast, e.separator = some .comma
  last : ∀ e ∈ items.getLast?, e.separator = some .comma ∨ s.expressionNext = false

theorem Listing.nil {s : State} (h : s.Within true tokens) : Listing tokens E [] s :=
  ⟨h, by simp, by simp, by simp⟩

/-- Where an operand is next, every item so far is followed by a comma. -/
theorem Listing.comma {items : List PrintEntry} {s : State} (h : Listing tokens E items s)
    (hnext : s.expressionNext = true) : ∀ e ∈ items, e.separator = some .comma := by
  intro e he
  obtain rfl | ⟨front, last, rfl⟩ := List.eq_nil_or_concat items
  · cases he
  · have hlast := h.last last (by simp)
    have hcommas := h.commas
    rw [List.concat_eq_append, List.dropLast_concat] at hcommas
    simp only [hnext, or_false, Bool.true_eq_false] at hlast
    obtain he | rfl := by simpa using he
    · exact hcommas e he
    · exact hlast

/-- What the parsers of expressions promise: inside a statement an expression is sound wherever
the statement begins, and one that a statement begins with is sound there. -/
class Promised (tokens : List Token) (E : outParam (Nat → Expr → Prop)) : Prop where
  inside : ∀ level, EnsuresInside tokens (expressionAt level) (Expr.Held E)
  first : ∀ (s : State) t us, s.rest = t :: us → s.rest <:+ tokens →
    Returns expression s fun e _ => e.Sound (E t.span.start)
  target : ∀ (s : State) t us, s.rest = t :: us → s.rest <:+ tokens →
    Returns (primary expressionAt) s fun e _ => e.Sound (E t.span.start)

/-- A promise that does not depend on the statement. -/
theorem Promised.of_anywhere {P : Expr → Prop}
    (hexpr : ∀ level, Ensures tokens (expressionAt level) (Expr.Sound P))
    (hprimary : Ensures tokens (primary expressionAt) (Expr.Sound P)) :
    Promised tokens fun _ => P where
  inside level s hs e s' hr _ := hexpr level s hs.anywhere e s' hr
  first s _ _ _ hs := hexpr 0 s ⟨hs, nofun⟩
  target s _ _ _ hs := hprimary s ⟨hs, nofun⟩

variable [Promised tokens E]

theorem expression_promises : EnsuresInside tokens expression (Expr.Held E) := Promised.inside 0

theorem afterComma_promises :
    EnsuresInside tokens (afterComma? expression) fun o => ∀ e ∈ o, e.Held E :=
  expression_promises.afterComma

theorem afterKeyword_promises (k : Keyword) :
    EnsuresInside tokens (afterKeyword? k expression) fun o => ∀ e ∈ o, e.Held E :=
  expression_promises.afterKeyword

theorem expression?_promises : EnsuresInside tokens expression? fun o => ∀ e ∈ o, e.Held E := by
  refine .look fun s => .ite (fun _ => ?_) fun _ => .pure (by simp)
  exact .bind expression_promises fun e he => .pure (by simpa using he)

theorem arrayBounds_promises :
    EnsuresInside tokens arrayBounds fun d => ∀ e ∈ d.exprs, e.Held E := by
  refine .look fun s => .past fun array => .past fun _ => ?_
  refine .bind (oneOrTwo_promises Promised.inside) fun bounds hbounds => ?_
  refine .past fun _ => .look fun s' => .pure ?_
  simpa [ArrayBounds.exprs] using hbounds

theorem dim_promises : EnsuresInside tokens dim (Form.Sound E) := by
  refine .bind arrayBounds_promises.commaList fun arrays h => .pure (sound_line rfl h.1 ?_)
  intro e he
  obtain ⟨d, hd, he⟩ := List.mem_flatMap.mp he
  exact h.2 d hd e he

theorem equate_promises : EnsuresInside tokens equate (Form.Sound E) := by
  refine .past fun constant => .past fun sense => .bind expression_promises fun value hv => ?_
  exact .pure (sound_line rfl trivial (by simpa [Form.operands] using hv))

theorem mat_promises : EnsuresInside tokens mat (Form.Sound E) := by
  refine .past fun array => .past fun _ => .bind expression_promises fun value hv => ?_
  exact .pure (sound_line rfl trivial (by simpa [Form.operands] using hv))

theorem jumpOn_promises : EnsuresInside tokens jumpOn (Form.Sound E) := by
  refine .thenAnywhere expression_promises fun selector hs => .past fun kind => ?_
  refine .bind (EnsuresFrom.any.commaList) fun targets h => .pure (sound_line rfl h.1 ?_)
  simpa [Form.operands] using hs

theorem printStep_returns {items : List PrintEntry} {s : State} (h : Listing tokens E items s) :
    Returns (printStep items) s fun r s' => r.Says (Listing tokens E · s') fun items =>
      (∀ e ∈ items, e.expr.Held E) ∧ ∀ e ∈ items.dropLast, e.separator = some .comma := by
  refine Returns.look (Returns.ite (fun hnext => ?_) fun _ => .pure ⟨h.sound, h.commas⟩)
  have hcomma := h.comma hnext
  refine Returns.bind fun e s₁ he => Returns.bind fun o s₂ ho => ?_
  have hexpr := expression_promises s h.within e s₁ he
  have hsound : ∀ x ∈ items ++ [⟨e, o⟩], x.expr.Held E :=
    List.forall_mem_append.mpr ⟨h.sound, List.forall_mem_singleton.mpr hexpr⟩
  have hcommas : ∀ x ∈ (items ++ [PrintEntry.mk e o]).dropLast, x.separator = some .comma := by
    rwa [List.dropLast_concat]
  have hcolon := entrySeparator_returns (expression_stops s e s₁ he) o s₂ ho
  have hwithin := (h.within.after he).after ho
  cases o with
  | none => exact .pure ⟨hsound, hcommas⟩
  | some separator =>
    have hlast : separator = .comma ∨ s₂.expressionNext = false := by
      cases separator with
      | comma => exact .inl rfl
      | colon => exact .inr (hcolon rfl)
    have hlisting : Listing tokens E (items ++ [⟨e, some separator⟩]) s₂ :=
      ⟨hwithin, hsound, hcommas, by simpa using hlast⟩
    exact .pure hlisting

theorem printList_promises : EnsuresInside tokens printList fun items =>
    (∀ e ∈ items, e.expr.Held E) ∧ PrintEntry.Proper items := by
  refine fun s hs items s' hr => ?_
  have hlist := Returns.loop (fun _ _ h => printStep_returns h) (.nil hs) items s' hr
  exact ⟨hlist.1, .of_comma hlist.2⟩

theorem print_promises : EnsuresInside tokens print (Form.Sound E) := by
  refine .bind (afterKeyword_promises .ON) fun channel hc => ?_
  refine .thenAnywhere printList_promises fun items h => ?_
  refine .pure (sound_line rfl h.2 ?_)
  simpa [Form.operands, or_imp, forall_and] using ⟨hc, h.1⟩

theorem crt_promises : EnsuresInside tokens crt (Form.Sound E) :=
  .thenAnywhere printList_promises fun _ h =>
    .pure (sound_line rfl h.2 (by simpa [Form.operands] using h.1))

theorem inputLength_promises : EnsuresInside tokens inputLength fun r => ∀ e ∈ r.1, e.Held E :=
  .bind afterComma_promises fun _ hl => .past fun _ => .pure hl

theorem inputTrap_promises : EnsuresInside tokens inputTrap (Form.Sound E) := by
  refine .thenAnywhere expression_promises fun keys hk => .past fun label => ?_
  refine .pure (sound_line rfl trivial ?_)
  simpa [Form.operands] using hk

theorem data_promises : EnsuresInside tokens data (Form.Sound E) :=
  .bind expression_promises.commaList fun _ h => .pure (sound_line rfl h.1 h.2)

/-- Of two operands the attribute forms take the second for the attribute, and all others the
first for the file. -/
theorem recordPath_promises (ofAttr : Bool) : EnsuresInside tokens (recordPath ofAttr) fun path =>
    path.Proper ofAttr ∧ ∀ e ∈ path.exprs, e.Held E := by
  refine .bind expression_promises fun a ha => .bind afterComma_promises fun b hb => ?_
  cases b with
  | none => exact .pure (by cases ofAttr <;> simp [RecordPath.Proper, RecordPath.exprs, ha])
  | some b =>
    have hb := hb b rfl
    refine .bind afterComma_promises fun c hc => ?_
    cases c with
    | none => exact .pure (by cases ofAttr <;> simp [RecordPath.Proper, RecordPath.exprs, ha, hb])
    | some c =>
      have hc := hc c rfl
      exact .pure (by cases ofAttr <;> simp [RecordPath.Proper, RecordPath.exprs, ha, hb, hc])

theorem writeTape_promises : EnsuresInside tokens writeTape (Form.Sound E) := by
  refine .bind expression_promises fun value hv => .past fun _ => ?_
  refine .bind expression_promises fun device hd => .pure (sound_line rfl trivial ?_)
  simpa [Form.operands] using ⟨hv, hd⟩

theorem select_promises : EnsuresInside tokens select (Form.Sound E) := by
  refine .bind expression?_promises fun source hs => .past fun list => ?_
  exact .pure (sound_line rfl trivial (by simpa [Form.operands] using hs))

theorem execute_promises : EnsuresInside tokens execute (Form.Sound E) := by
  refine .bind expression_promises fun command hc => ?_
  refine .past fun capturing => .past fun returning => ?_
  exact .pure (sound_line rfl trivial (by simpa [Form.operands] using hc))

theorem callArguments_promises :
    EnsuresInside tokens callArguments fun args => ∀ e ∈ args, e.Held E :=
  .past fun _ => .ite (fun _ => arguments_promises Promised.inside) fun _ => .pure nofun

theorem call_promises : EnsuresInside tokens call (Form.Sound E) :=
  .past fun _ => .thenAnywhere callArguments_promises fun _ h => .pure (sound_line rfl trivial h)

theorem operandOf_promises (verb : OperandVerb) :
    EnsuresInside tokens (operandOf verb) (Form.Sound E) :=
  .bind expression_promises fun _ h =>
    .pure (sound_line rfl trivial (by simpa [Form.operands] using h))

theorem optionalOf_promises (verb : OptionalVerb) :
    EnsuresInside tokens (optionalOf verb) (Form.Sound E) :=
  .bind expression?_promises fun _ h =>
    .pure (sound_line rfl trivial (by simpa [Form.operands] using h))

section Nested
variable {nested : Parser Statement} [Onward nested]
variable (hn : Ensures tokens nested (Statement.Sound E))
include hn

omit hn in
/-- The word of the guard leads inside; where there is none, no condition can follow. -/
theorem loopGuard_promises (sense : GuardSense) :
    Ensures tokens (loopGuard sense) fun g => g.condition.Held E := by
  intro s hs
  cases hr : s.rest with
  | nil =>
    refine Returns.bind fun _ s₁ h₁ => Returns.bind fun e s₂ h₂ => ?_
    obtain rfl : s = s₁ := by simpa [skip, State.drop, hr] using h₁
    have hlt := expression_moves.lt h₂
    simp [hr] at hlt
  | cons t us =>
    exact Returns.skipOne hr (Returns.bind fun e s₂ h₂ =>
      .pure (expression_promises _ (.past hs.rest hr) e s₂ h₂))

omit hn in
theorem forGuard_promises : Ensures tokens forGuard fun o => ∀ g ∈ o, g.condition.Held E := by
  refine .look fun s => ?_
  cases guardSense? s with
  | none => exact .pure (by simp)
  | some sense =>
    refine .ite (fun _ => ?_) fun _ => .pure (by simp)
    exact .bind (loopGuard_promises sense) fun g h => .pure (by simpa using h)

theorem forNext_promises (opener : Token) :
    EnsuresInside tokens (forNext nested opener) (Form.Sound E) := by
  refine .past fun counter => .past fun _ => .bind expression_promises fun first hfirst => ?_
  refine .past fun _ => .bind expression_promises fun limit hlimit => ?_
  refine .thenAnywhere (afterKeyword_promises .STEP) fun step hstep => ?_
  refine .bind forGuard_promises fun guard hg => ?_
  refine .bind (body_promises hn .forBody) fun r hbody => ?_
  have he : ∀ e ∈ first :: limit :: (step.toList ++ (guard.map LoopGuard.condition).toList),
      e.Held E := by
    simp only [List.forall_mem_cons, List.forall_mem_append, Option.mem_toList]
    exact ⟨hfirst, hlimit, hstep, by simpa using held_guard hg⟩
  refine .ite (fun _ => .past fun next => ?_) fun _ => .past fun _ => ?_
  · exact .pure (sound_forNext he hbody)
  · exact .pure (sound_forNext he hbody)

theorem loopRest_promises {owner : Owner} (sense : GuardSense) :
    Ensures tokens (loopRest nested owner sense) fun r =>
      (∀ g ∈ r.1, g.condition.Held E) ∧ Item.SoundAll E r.2 := by
  refine .bind (loopGuard_promises sense).orSkip fun guard hg => .past fun _ => ?_
  exact .bind (body_promises hn .loopAfter) fun r hbody => .past fun _ => .pure ⟨hg, hbody⟩

theorem loopRepeat_promises (opener : Token) :
    Ensures tokens (loopRepeat nested opener) (Form.Sound E) := by
  refine .bind (body_promises hn .loopBefore) fun ⟨before, stop⟩ hbefore => ?_
  have halone : Form.Sound E (.loop before none []) := sound_loop hbefore (by simp) .nil
  refine .ite (fun _ => .look fun s => ?_) fun _ => .past fun _ => .pure halone
  cases guardSense? s with
  | none => exact .past fun _ => .pure halone
  | some sense =>
    exact .bind (loopRest_promises hn sense) fun r h => .pure (sound_loop hbefore h.1 h.2)

/-- A clause that is left out leaves its body out with it. -/
theorem caseArm_promises {leading : List Item} (h : Item.SoundAll E leading) :
    Ensures tokens (caseArm nested leading) fun r =>
      ∀ c ∈ r.1, c.condition.Held E ∧ Item.SoundAll E c.body := by
  refine .next fun opener => .thenAnywhere expression_promises.orSkip fun condition hc => ?_
  refine .bind (body_promises hn .caseBody) fun r hbody => .look fun s => .pure ?_
  cases condition with
  | none => simp
  | some condition => simpa using ⟨hc condition rfl, h.append hbody⟩

theorem caseArmStep_promises {owner : Owner} {p : CaseProgress} (h : SoundProgress E p) :
    Ensures tokens (caseArmStep nested owner p)
      (·.Says (SoundProgress E) (CaseArm.SoundAll E)) := by
  refine .bind (caseArm_promises hn h.leading) fun r hclause => ?_
  obtain ⟨_ | c, stop⟩ := r
  · exact afterArm_promises h stop
  · obtain ⟨hc, hb⟩ := hclause c rfl
    exact afterArm_promises (p := ⟨[], p.cases ++ [c]⟩) ⟨.nil, h.cases.concat hc hb⟩ stop

theorem caseStep_promises {owner : Owner} {p : CaseProgress} (h : SoundProgress E p) :
    Ensures tokens (caseStep nested owner p) (·.Says (SoundProgress E) (CaseArm.SoundAll E)) := by
  refine .bind (commentItems_promises (E := E)) fun cs hcs => .past fun separator => ?_
  have h : SoundProgress E ⟨p.leading ++ cs, p.cases⟩ := ⟨h.leading.append hcs, h.cases⟩
  refine .ite (fun _ => .pure h) fun _ => .look fun s => ?_
  refine .ite (fun _ => abandonCases_promises h.cases) fun _ => ?_
  refine .ite (fun _ => .past fun _ => .pure h.cases) fun _ => ?_
  refine .ite (fun _ => caseArmStep_promises hn h) fun _ => ?_
  refine .ite (fun _ => abandonCases_promises h.cases) fun _ => ?_
  exact .past fun _ => .past fun _ => .past fun _ => .pure h

theorem beginCase_promises (opener : Token) :
    Ensures tokens (beginCase nested opener) (Form.Sound E) := by
  refine .past fun word => .bind (.loop (fun _ h => caseStep_promises hn h) ⟨.nil, .nil⟩) ?_
  intro cases h
  exact .pure fun start => ⟨⟨trivial, nofun⟩, h start⟩

variable (opener : Token)

theorem ifThen_promises : EnsuresInside tokens (ifThen nested opener) (Form.Sound E) := by
  refine .thenAnywhere expression_promises fun condition hc => ?_
  refine .bind (requiredClause_promises hn) fun clause h => ?_
  refine .pure (Form.sound_of_attachments rfl trivial (by simpa [Form.operands] using hc) ?_)
  exact .of_clause (by simpa using h)

theorem inputAt_promises : EnsuresInside tokens (inputAt nested opener) (Form.Sound E) := by
  refine .past fun _ => .past fun _ => .bind expression_promises fun column hcolumn => ?_
  refine .past fun _ => .bind expression_promises fun row hrow => ?_
  refine .past fun _ => .past fun _ => .past fun into => ?_
  refine .thenAnywhere inputLength_promises fun r hl => .look fun s => ?_
  refine .bind (clause?_promises hn) fun clause h => .pure ?_
  refine Form.sound_of_attachments rfl trivial ?_ (.of_clause h)
  simpa [Form.operands] using ⟨hcolumn, hrow, hl⟩

theorem input_promises : EnsuresInside tokens (input nested opener) (Form.Sound E) := by
  refine .look fun s => .ite (fun _ => inputAt_promises hn opener) fun _ => .past fun into => ?_
  refine .thenAnywhere inputLength_promises fun r hl => ?_
  refine .bind (clause?_promises hn) fun clause h => .pure ?_
  exact Form.sound_of_attachments rfl trivial (by simpa [Form.operands] using hl) (.of_clause h)

theorem openFile_promises : EnsuresInside tokens (openFile nested opener) (Form.Sound E) := by
  refine .bind expression_promises fun a ha => .thenAnywhere afterComma_promises fun b hb => ?_
  refine .past fun into => ?_
  refine .bind (onErrorClause_promises hn) fun onError he => ?_
  refine .bind (requiredClause_promises hn) fun clause hc => ?_
  have hattached : Attachments.Sound E ⟨onError, none, some clause⟩ :=
    .unlocked he (by simpa using hc)
  cases b with
  | none =>
    refine .pure (Form.sound_of_attachments rfl trivial ?_ hattached)
    simpa [Form.operands] using ha
  | some file =>
    refine .pure (Form.sound_of_attachments rfl trivial ?_ hattached)
    simpa [Form.operands] using ⟨ha, hb file rfl⟩

theorem read_promises (mode : RecordMode) :
    EnsuresInside tokens (read nested mode opener) (Form.Sound E) := by
  refine .past fun into => .past fun _ => ?_
  refine .thenAnywhere (recordPath_promises _) fun path hpath => ?_
  refine .bind (onErrorClause_promises hn) fun onError he => ?_
  refine .bind (lockedClause_promises hn) fun locked hl => ?_
  refine .bind (clause?_promises hn) fun clause hc => .pure ?_
  exact Form.sound_of_attachments rfl hpath.1 hpath.2 ⟨he, hl, hc⟩

theorem write_promises (mode : RecordMode) :
    EnsuresInside tokens (write nested mode) (Form.Sound E) := by
  refine .bind expression_promises fun value hv => .past fun _ => ?_
  refine .thenAnywhere (recordPath_promises _) fun path hpath => ?_
  refine .bind (onErrorClause_promises hn) fun onError he => .pure ?_
  refine Form.sound_of_attachments rfl hpath.1 ?_ (.of_onError he)
  exact List.forall_mem_cons.mpr ⟨hv, hpath.2⟩

theorem delete_promises : EnsuresInside tokens (delete nested opener) (Form.Sound E) := by
  refine .thenAnywhere (recordPath_promises false) fun path hpath => ?_
  refine .bind (onErrorClause_promises hn) fun onError he => ?_
  refine .bind (clause?_promises hn) fun clause hc => .pure ?_
  exact Form.sound_of_attachments rfl hpath.1 hpath.2 (.unlocked he hc)

omit [Promised tokens E] in
theorem receive_promises (feed : Feed) :
    Ensures tokens (receive nested feed opener) (Form.Sound E) := by
  refine .past fun into => .bind (clause?_promises hn) fun clause hc => .pure ?_
  exact Form.sound_of_attachments rfl trivial (List.forall_mem_nil _) (.of_clause hc)

theorem lock_promises : EnsuresInside tokens (lock nested opener) (Form.Sound E) := by
  refine .thenAnywhere expression_promises fun number hnumber => ?_
  refine .bind (lockedClause_promises hn) fun locked hl => ?_
  refine .bind (clause?_promises hn) fun clause hc => .pure ?_
  exact Form.sound_of_attachments rfl trivial (by simpa [Form.operands] using hnumber)
    ⟨Attachments.Sound.none.onError, hl, hc⟩

theorem clearFile_promises : EnsuresInside tokens (clearFile nested) (Form.Sound E) := by
  refine .thenAnywhere expression_promises fun file hf => ?_
  refine .bind (onErrorClause_promises hn) fun onError he => ?_
  refine .pure (Form.sound_of_attachments rfl trivial ?_ (.of_onError he))
  simpa [Form.operands] using hf

theorem matRead_promises (locking : Bool) :
    EnsuresInside tokens (matRead nested locking opener) (Form.Sound E) := by
  refine .past fun array => .past fun _ => ?_
  refine .thenAnywhere (recordPath_promises false) fun path hpath => ?_
  refine .bind (onErrorClause_promises hn) fun onError he => ?_
  refine .bind (lockedClause_promises hn) fun locked hl => ?_
  refine .bind (clause?_promises hn) fun clause hc => .pure ?_
  exact Form.sound_of_attachments rfl hpath.1 hpath.2 ⟨he, hl, hc⟩

theorem matWrite_promises (locking : Bool) :
    EnsuresInside tokens (matWrite nested locking) (Form.Sound E) := by
  refine .past fun array => .past fun _ => ?_
  refine .thenAnywhere (recordPath_promises false) fun path hpath => ?_
  refine .bind (onErrorClause_promises hn) fun onError he => .pure ?_
  exact Form.sound_of_attachments rfl hpath.1 hpath.2 (.of_onError he)

theorem locate_promises : EnsuresInside tokens (locate nested opener) (Form.Sound E) := by
  refine .bind expression_promises fun value hv => .past fun _ => ?_
  refine .thenAnywhere expression_promises fun container hcontainer => .past fun setting => ?_
  refine .bind (clause?_promises hn) fun clause hc => .pure ?_
  refine Form.sound_of_attachments rfl trivial ?_ (.of_clause hc)
  simpa [Form.operands] using ⟨hv, hcontainer⟩

omit hn [Onward nested] [Promised tokens E] in
/-- Where no sign stands first, an expression is an operand and what is chained to it. -/
theorem expression_of_chain {s s₁ s₂ : State} {t : Token} {us : List Token} {left e : Expr}
    (hr : s.rest = t :: us) (ht : unaryOf? t.kind = none)
    (hleft : (primary expressionAt).run s = (some left, s₁))
    (he : (chain expressionAt 0 left).run s₁ = (some e, s₂)) :
    expression.run s = (some e, s₂) := by
  have hoperand : (operand expressionAt).run s = (some left, s₁) := by
    have hkind : s.kind?.bind unaryOf? = none := by simp [State.kind?, hr, ht]
    rw [operand, run_bind_some (run_look s), hkind]
    exact hleft
  rw [expression, expressionAt_eq, expressionStep, run_bind_some hoperand]
  exact he

omit hn [Onward nested] in
/-- Only what can be assigned to is the target of an assignment. The statement begins with its
first expression, and a value behind the equals sign stands inside it. -/
theorem assignmentOrExpression_returns {s : State} {us : List Token} (hs : s.rest <:+ tokens)
    (hr : s.rest = opener :: us) :
    Returns (assignmentOrExpression opener) s fun f _ => f.SoundAt E opener.span.start := by
  have hfirst := Promised.first s opener us hr hs
  have alone {e : Expr} (he : e.Sound (E opener.span.start)) :
      Form.SoundAt E opener.span.start (.expression e) :=
    Form.soundAt_of_attachments rfl trivial (by simpa [Form.operands] using he) .none
  refine Returns.ite (fun _ => expected_returns) fun _ => Returns.ite (fun _ => ?_) fun hunary => ?_
  · exact Returns.bind fun e s₁ he => .pure (alone (hfirst e s₁ he))
  refine Returns.bind fun target s₁ htarget => Returns.look (Returns.ite (fun hassign => ?_) ?_)
  · simp only [Bool.and_eq_true] at hassign
    obtain ⟨t, vs, hequals, -, -⟩ := State.rest_of_isAtOnLine hassign.2
    have hs₁ := (Onward.run_reaches htarget).rest.trans hs
    refine Returns.skipOne hequals (Returns.bind fun value s₂ hvalue => Returns.pure ?_)
    have hv := expression_promises _ (.past hs₁ hequals) value s₂ hvalue
    refine Form.soundAt_of_attachments rfl hassign.1 ?_ .none
    have ht := Promised.target s opener us hr hs target s₁ htarget
    simpa [Form.operands] using ⟨ht, hv opener.span.start⟩
  · -- The operand and what is chained to it are one run of the expression parser.
    refine fun _ => Returns.bind fun e s₂ he => .pure (alone (hfirst e s₂ ?_))
    exact expression_of_chain hr (by simpa using hunary) htarget he

omit hn [Onward nested] [Promised tokens E] opener in
/-- Behind the keyword the statement has begun. -/
theorem led_promises {p : Token → Parser Form} {q : Parser Form}
    (h : ∀ t, EnsuresInside tokens (p t) (Form.Sound E)) :
    led p = q ∨ Ensures tokens (led p) (Form.Sound E) :=
  .inr (.next h)

/-- A keyword that opens no form is the first word of an expression. -/
theorem keywordForm_promises (k : Keyword) :
    keywordForm nested k opener = assignmentOrExpression opener ∨
      Ensures tokens (keywordForm nested k opener) (Form.Sound E) := by
  cases k with
  | SUBROUTINE => exact led_promises fun _ => .of_anywhere subroutine_promises
  | END => exact .inr (endUnit_promises opener)
  | DIM | DIMENSION => exact led_promises fun _ => dim_promises
  | COMMON | COM => exact led_promises fun _ => .of_anywhere common_promises
  | EQUATE | EQU => exact led_promises fun _ => equate_promises
  | MAT => exact led_promises fun _ => mat_promises
  | IF => exact led_promises (ifThen_promises hn)
  | BEGIN => exact led_promises fun t => .of_anywhere (beginCase_promises hn t)
  | FOR => exact led_promises (forNext_promises hn)
  | LOOP => exact led_promises fun t => .of_anywhere (loopRepeat_promises hn t)
  | GOTO | GOSUB => exact led_promises fun _ => .of_anywhere (jump_promises _)
  | GO => exact led_promises fun _ => .of_anywhere go_promises
  | ON => exact led_promises fun _ => jumpOn_promises
  | RETURN => exact led_promises fun _ => .of_anywhere returnTo_promises
  | PRINT => exact led_promises fun _ => print_promises
  | CRT => exact led_promises fun _ => crt_promises
  | INPUT => exact led_promises (input_promises hn)
  | INPUTTRAP => exact led_promises fun _ => inputTrap_promises
  | DATA => exact led_promises fun _ => data_promises
  | PRINTER | BREAK | ECHO => exact led_promises fun _ => .of_anywhere (switch_promises _)
  | OPEN => exact led_promises (openFile_promises hn)
  | READ | READU | READV | READVU => exact led_promises fun t => read_promises hn t _
  | WRITE | WRITEU | WRITEV | WRITEVU => exact led_promises fun _ => write_promises hn _
  | DELETE => exact led_promises (delete_promises hn)
  | READNEXT | READT | PROCREAD =>
    exact led_promises fun t => .of_anywhere (receive_promises hn t _)
  | WRITET => exact led_promises fun _ => writeTape_promises
  | SELECT => exact led_promises fun _ => select_promises
  | LOCK => exact led_promises (lock_promises hn)
  | CLEARFILE => exact led_promises fun _ => clearFile_promises hn
  | MATREAD | MATREADU => exact led_promises fun t => matRead_promises hn t _
  | MATWRITE | MATWRITEU => exact led_promises fun _ => matWrite_promises hn _
  | LOCATE => exact led_promises (locate_promises hn)
  | EXECUTE => exact led_promises fun _ => execute_promises
  | CALL => exact led_promises fun _ => call_promises
  | INPUTERR | INPUTNULL | PROMPT | HEADING | FOOTING | UNLOCK | PROCWRITE | WEOF | CHAIN | ENTER
  | PRECISION => exact led_promises fun _ => operandOf_promises _
  | STOP | ABORT | PAGE | RELEASE | REWIND | SLEEP =>
    exact led_promises fun _ => optionalOf_promises _
  | RQM | NULL | CLEAR => exact led_promises fun _ => .pure (sound_line rfl trivial nofun)
  | NEXT | REPEAT | WHILE | UNTIL | ELSE | CASE => exact .inr strayTerminator_promises
  | _ => exact .inl rfl

theorem form_returns {s : State} {us : List Token} (hs : s.rest <:+ tokens)
    (hr : s.rest = opener :: us) :
    Returns (form nested opener) s fun f _ => f.SoundAt E opener.span.start := by
  have hexpression := assignmentOrExpression_returns opener hs hr
  cases hkind : opener.kind with
  | keyword k =>
    rw [show form nested opener = keywordForm nested k opener by rw [form, hkind]]
    obtain hk | hk := keywordForm_promises hn opener k
    · rwa [hk]
    · exact fun f s' hrun => hk s ⟨hs, nofun⟩ f s' hrun _
  | _ => simpa only [form, hkind] using hexpression

theorem statementStep_promises : Ensures tokens (statementStep nested) (Statement.Sound E) := by
  refine fun s hs => Returns.look ?_
  cases hr : s.rest with
  | nil => exact expected_returns
  | cons t us =>
    refine Returns.bind fun f s' hrun => Returns.look (Returns.pure (Statement.sound_of_form ?_))
    rw [State.since_start]
    exact form_returns hn t hs.rest hr f s' hrun

end Nested

theorem statement_promises : Ensures tokens statement (Statement.Sound E) :=
  .knot (fun _ => statement_onward)
    (fun _ ho hn _ => @statementStep_promises _ _ _ _ (ho ()) (hn ())) ()

theorem programStep_promises {items : List Item} (h : Item.SoundAll E items) :
    Ensures tokens (programStep statement items) (·.Says (Item.SoundAll E) (Item.SoundAll E)) := by
  refine .bind (commentItems_promises (E := E)) fun cs hcs => .past fun separator => ?_
  have h := h.append hcs
  refine .ite (fun _ => .pure h) fun _ => .look fun s => .ite (fun _ => .pure h) fun _ => ?_
  exact .bind (item_promises statement_promises) fun o ho => .pure (h.append ho)

theorem programItems_promises : Ensures tokens (programItems statement) (Item.SoundAll E) :=
  .loop (fun _ h => programStep_promises h) .nil

end PickSyntax.Grammar

namespace PickSyntax

open PickSyntax.Parser PickSyntax.Grammar

/-- What the parsers of expressions promise of nodes holds of all nodes of the tree, and every
statement of it is proper. -/
theorem parse_sound {E : Nat → Expr → Prop} (options : Options) (source : String)
    [Promised (lex source).tokens E] :
    AllSound E (parseWith options source).program.allStatements
      (parseWith options source).program.placed := by
  have hprogram : (parseWith options source).program =
      (State.ofLexing (lex source) options.keepComments).readProgram.1 := rfl
  obtain ⟨items, s', hrun, -, -⟩ :=
    programLoop_ends [] (State.ofLexing (lex source) options.keepComments)
  rw [hprogram, readProgram_of_some hrun]
  have hsound : Ensures (lex source).tokens (programItems statement) (Item.SoundAll E) :=
    programItems_promises
  exact hsound _ ⟨List.suffix_rfl, nofun⟩ items s' hrun

end PickSyntax
