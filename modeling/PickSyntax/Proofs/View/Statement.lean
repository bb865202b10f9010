import PickSyntax.Grammar.Statement
import PickSyntax.Proofs.View.Expression

/-!
# Statements seen through a view

Statements commute with every view, form by form. A body hands its comments on to the tree; the
view leaves out the same comments there as in the list they came from, and nothing else depends
on them.
-/
namespace PickSyntax.Grammar

open PickSyntax.Parser

variable {v : View}

instance : Commutes v parameters := ⟨by simp [parameters]⟩

instance : Commutes v subroutine := ⟨by simp [subroutine]⟩

instance : Commutes v arrayBounds where
  through_eq := by
    simp only [arrayBounds, through_bind, through_eq_viewed, viewed_then, viewed_bind]
    congr 1
    funext s
    have h0 : ∀ s : State, (s.seen v).since 0 = (s.since 0).seen v := fun s => by
      rw [← s.since_seen, v.offset_zero]
    cases hr : s.rest <;> simp [hr, h0, ArrayBounds.seen]

instance : Commutes v dim := ⟨by simp [dim]⟩

instance : Commutes v commonBlock := ⟨by simp [commonBlock]⟩

instance : Commutes v common := ⟨by simp [common]⟩

instance : Commutes v equateSense := ⟨by simp [equateSense]⟩

instance : Commutes v equate := ⟨by simp [equate]⟩

instance : Commutes v mat := ⟨by simp [mat]⟩

instance : Commutes v target where
  through_eq := by
    simp only [target, through_bind, through_eq_viewed, viewed_then, viewed_bind]
    congr 1
    funext s
    cases hr : s.rest <;> simp [hr, Target.seen]

instance : Commutes v goKind := ⟨by simp [goKind]⟩

instance (kind : JumpKind) : Commutes v (jump kind) := ⟨by simp [jump]⟩

instance : Commutes v go := ⟨by simp [go]⟩

instance : Commutes v jumpOnKind := ⟨by simp [jumpOnKind]⟩

instance : Commutes v jumpOn := ⟨by simp [jumpOn]⟩

instance : Commutes v returnTo := ⟨by simp [returnTo]⟩

@[simp] theorem closes_seen (s : State) (b : Block) : closes (s.seen v) b = closes s b := by
  simp [closes]

@[simp] theorem closesAny_seen (s : State) (bs : List Block) :
    closesAny (s.seen v) bs = closesAny s bs := by
  simp [closesAny, funext (closes_seen (v := v) s)]

@[simp] theorem awaitsEnd_seen (s : State) : awaitsEnd (s.seen v) = awaitsEnd s := by
  simp [awaitsEnd]

@[simp] theorem label?_seen (s : State) : label? (s.seen v) = (label? s).map (Label.seen v) := by
  cases hr : s.rest with
  | nil => simp [label?, hr]
  | cons t ts => simp [label?, hr, apply_ite, Label.seen]

instance : Commutes v beginStatement := ⟨modifyState_seen fun _ => rfl⟩

instance (left : Nat) : Commutes v (endStatement left) := ⟨by simp [endStatement]⟩

instance : Commutes v commentItems := ⟨by simp [commentItems]⟩

section Statements
variable {statement : Parser Statement} [Commutes v statement]

instance : Commutes v (item statement) where
  through_eq := by
    simp only [item, through_bind, through_eq_viewed, viewed_then, viewed_bind]
    congr 1
    funext s
    simp only [Visible.seen, label?_seen]
    cases label? s with
    | some l => simp
    | none =>
      simp only [Option.map_none, through_bind, through_eq_viewed, viewed_then, viewed_bind]
      congr 1
      funext _
      congr 1
      funext st
      cases st <;> simp

theorem bodyStep_seen (block : Block) (items : List Item) :
    (bodyStep statement block (Item.seenAll v items)).through v =
      (bodyStep statement block items).viewed v := by
  simp [bodyStep]

instance (block : Block) : Commutes v (body statement block) :=
  @Commutes.inBlock _ _ _ _ ⟨loop_seen (bodyStep_seen block) []⟩ block

theorem programStep_seen (items : List Item) :
    (programStep statement (Item.seenAll v items)).through v =
      (programStep statement items).viewed v := by
  simp [programStep]

instance : Commutes v (programItems statement) := ⟨loop_seen programStep_seen []⟩

instance : Commutes v (clauseStatement statement) := ⟨by simp [clauseStatement]⟩

instance : Commutes v (onErrorClause statement) := ⟨by simp [onErrorClause]⟩

instance : Commutes v (lockedClause statement) := ⟨by simp [lockedClause]⟩

section Owner
variable (name : String) (place : Span)

@[simp] theorem reportUnclosed_seen (terminator : String) :
    (reportUnclosed ⟨name, place.seen v⟩ terminator).through v =
      (reportUnclosed ⟨name, place⟩ terminator).viewed v :=
  report_place_seen rfl place

@[simp] theorem closeBlock_seen (terminator : String) (stop : BodyEnd) :
    (closeBlock ⟨name, place.seen v⟩ terminator stop).through v =
      (closeBlock ⟨name, place⟩ terminator stop).viewed v := by
  cases stop <;> simp [closeBlock]

@[simp] theorem elseBlock_seen :
    (elseBlock statement ⟨name, place.seen v⟩).through v =
      (elseBlock statement ⟨name, place⟩).viewed v := by
  simp [elseBlock]

@[simp] theorem elseBranch_seen :
    (elseBranch statement ⟨name, place.seen v⟩).through v =
      (elseBranch statement ⟨name, place⟩).viewed v := by
  simp [elseBranch]

@[simp] theorem thenBlock_seen :
    (thenBlock statement ⟨name, place.seen v⟩).through v =
      (thenBlock statement ⟨name, place⟩).viewed v := by
  simp [thenBlock]

@[simp] theorem closeInline_seen (clause : Clause) :
    (closeInline (clause.seen v)).through v = (closeInline clause).viewed v := by
  obtain ⟨t, e, layout⟩ := clause
  simp [closeInline]

@[simp] theorem thenInline_seen :
    (thenInline statement ⟨name, place.seen v⟩).through v =
      (thenInline statement ⟨name, place⟩).viewed v := by
  have hone : ∀ st : Statement,
      (closeInline ⟨some [.statement (st.seen v)], none, .inline⟩).through v =
        (closeInline ⟨some [.statement st], none, .inline⟩).viewed v :=
    fun st => by simpa using closeInline_seen ⟨some [.statement st], none, .inline⟩
  have htwo : ∀ (st : Statement) (other : List Item) (layout : ClauseLayout),
      (closeInline ⟨some [.statement (st.seen v)], some (Item.seenAll v other), layout⟩).through v =
        (closeInline ⟨some [.statement st], some other, layout⟩).viewed v :=
    fun st other layout => by
      simpa using closeInline_seen ⟨some [.statement st], some other, layout⟩
  simp [thenInline, hone, htwo]

@[simp] theorem clause?_seen :
    (clause? statement ⟨name, place.seen v⟩).through v =
      (clause? statement ⟨name, place⟩).viewed v := by
  have helse : ∀ (other : List Item) (layout : ClauseLayout),
      (closeInline ⟨none, some (Item.seenAll v other), layout⟩).through v =
        (closeInline ⟨none, some other, layout⟩).viewed v :=
    fun other layout => by simpa using closeInline_seen ⟨none, some other, layout⟩
  simp [clause?, helse]

@[simp] theorem requiredClause_seen :
    (requiredClause statement ⟨name, place.seen v⟩).through v =
      (requiredClause statement ⟨name, place⟩).viewed v := by
  simp only [requiredClause, through_bind, clause?_seen, viewed_then, viewed_bind]
  congr 1
  funext c
  have hr := report_place_seen (v := v) (c := .noClause name "THEN or ELSE") rfl
  cases c <;> simp [hr]

end Owner
variable (opener : Token)

@[simp] theorem ifThen_seen :
    (ifThen statement (opener.seen v)).through v = (ifThen statement opener).viewed v := by
  simp [ifThen]

@[simp] theorem guardSense?_seen (s : State) : guardSense? (s.seen v) = guardSense? s := by
  simp [guardSense?]

instance (sense : GuardSense) : Commutes v (loopGuard sense) :=
  ⟨by simp [loopGuard, LoopGuard.seen]⟩

instance : Commutes v forGuard where
  through_eq := by
    simp only [forGuard, through_bind, through_eq_viewed, viewed_then, viewed_bind]
    congr 1
    funext s
    simp only [Visible.seen, guardSense?_seen]
    cases guardSense? s <;> simp

instance : Commutes v nextName := ⟨by simp [nextName]⟩

@[simp] theorem forNext_seen :
    (forNext statement (opener.seen v)).through v = (forNext statement opener).viewed v := by
  simp [forNext]

@[simp] theorem loopRest_seen (name : String) (place : Span) (sense : GuardSense) :
    (loopRest statement ⟨name, place.seen v⟩ sense).through v =
      (loopRest statement ⟨name, place⟩ sense).viewed v := by
  simp [loopRest]

@[simp] theorem loopRepeat_seen :
    (loopRepeat statement (opener.seen v)).through v = (loopRepeat statement opener).viewed v := by
  simp only [loopRepeat, through_bind, through_eq_viewed, viewed_then, viewed_bind]
  congr 1
  funext b
  simp only [Visible.seen, Prod.map_snd]
  split
  · simp only [through_bind, through_eq_viewed, viewed_then, viewed_bind]
    congr 1
    funext s
    simp only [Visible.seen, guardSense?_seen]
    cases guardSense? s <;> simp
  · simp

@[simp] theorem caseArm_seen (leading : List Item) :
    (caseArm statement (Item.seenAll v leading)).through v =
      (caseArm statement leading).viewed v := by
  simp [caseArm, Function.comp_def]

def CaseProgress.seen (v : View) (p : CaseProgress) : CaseProgress :=
  ⟨Item.seenAll v p.leading, p.cases.map (CaseArm.seen v)⟩

instance : Visible CaseProgress := ⟨CaseProgress.seen⟩

@[simp] theorem abandonCases_seen (name : String) (place : Span) (cases : List CaseArm) :
    (abandonCases ⟨name, place.seen v⟩ (cases.map (CaseArm.seen v))).through v =
      (abandonCases ⟨name, place⟩ cases).viewed v := by
  simp [abandonCases]

theorem caseArmStep_seen (name : String) (place : Span) (p : CaseProgress) :
    (caseArmStep statement ⟨name, place.seen v⟩ (p.seen v)).through v =
      (caseArmStep statement ⟨name, place⟩ p).viewed v := by
  simp only [caseArmStep, CaseProgress.seen, through_bind, caseArm_seen, viewed_then, viewed_bind]
  congr 1
  funext r
  obtain ⟨clause, stop⟩ := r
  have ha := fun c => abandonCases_seen (v := v) name place (p.cases ++ [c])
  simp only [List.map_append, List.map_cons, List.map_nil] at ha
  cases clause <;> cases stop <;> simp [CaseProgress.seen, ha]

theorem caseStep_seen (name : String) (place : Span) (p : CaseProgress) :
    (caseStep statement ⟨name, place.seen v⟩ (p.seen v)).through v =
      (caseStep statement ⟨name, place⟩ p).viewed v := by
  have hs := fun cs : List Item =>
    @caseArmStep_seen v statement _ name place ⟨p.leading ++ cs, p.cases⟩
  simp only [CaseProgress.seen, Item.seenAll_append] at hs
  simp [caseStep, CaseProgress.seen, hs]

@[simp] theorem caseArms_seen (name : String) (place : Span) :
    (caseArms statement ⟨name, place.seen v⟩).through v =
      (caseArms statement ⟨name, place⟩).viewed v :=
  loop_seen (caseStep_seen name place) ⟨[], []⟩

@[simp] theorem beginCase_seen :
    (beginCase statement (opener.seen v)).through v = (beginCase statement opener).viewed v := by
  have hc := fun word : Token =>
    @caseArms_seen v statement _ "BEGIN CASE" (opener.span.merge word.span)
  simp only [Span.seen_merge] at hc
  simp [beginCase, hc]

instance : Commutes v entrySeparator := ⟨by simp [entrySeparator]⟩

theorem printStep_seen (items : List PrintEntry) :
    (printStep (items.map (PrintEntry.seen v))).through v = (printStep items).viewed v := by
  simp only [printStep, through_bind, through_eq_viewed, viewed_then, viewed_bind]
  congr 1
  funext s
  simp only [Visible.seen, State.expressionNext_seen]
  split
  · simp only [through_bind, through_eq_viewed, viewed_then, viewed_bind]
    congr 1
    funext e
    congr 1
    funext separator
    cases separator <;> simp [PrintEntry.seen]
  · simp

instance : Commutes v printList := ⟨loop_seen printStep_seen []⟩

instance : Commutes v print := ⟨by simp [print]⟩

instance : Commutes v crt := ⟨by simp [crt]⟩

instance : Commutes v inputLength := ⟨by simp [inputLength]⟩

@[simp] theorem inputAt_seen :
    (inputAt statement (opener.seen v)).through v = (inputAt statement opener).viewed v := by
  simp [inputAt]

@[simp] theorem input_seen :
    (input statement (opener.seen v)).through v = (input statement opener).viewed v := by
  simp [input]

instance : Commutes v data := ⟨by simp [data]⟩

instance (device : Device) : Commutes v (switch device) := ⟨by simp [switch]⟩

instance (ofAttr : Bool) : Commutes v (recordPath ofAttr) where
  through_eq := by
    simp only [recordPath, through_bind, through_eq_viewed, viewed_then, viewed_bind]
    congr 1
    funext a
    congr 1
    funext b
    cases b with
    | none => simp [RecordPath.seen]
    | some b =>
      simp only [Visible.seen, Option.map_some, through_bind, through_eq_viewed, viewed_then,
        viewed_bind]
      congr 1
      funext c
      cases c <;> cases ofAttr <;> simp [RecordPath.seen]

instance : Commutes v destination := ⟨by simp [destination]⟩

@[simp] theorem openFile_seen :
    (openFile statement (opener.seen v)).through v = (openFile statement opener).viewed v := by
  simp only [openFile, through_bind, through_eq_viewed, viewed_then, viewed_bind]
  congr 1
  funext a
  congr 1
  funext b
  cases b <;> simp

@[simp] theorem read_seen (mode : RecordMode) :
    (read statement mode (opener.seen v)).through v = (read statement mode opener).viewed v := by
  simp [read]

instance (mode : RecordMode) : Commutes v (write statement mode) := ⟨by simp [write]⟩

@[simp] theorem delete_seen :
    (delete statement (opener.seen v)).through v = (delete statement opener).viewed v := by
  simp [delete]

@[simp] theorem receive_seen (feed : Feed) :
    (receive statement feed (opener.seen v)).through v =
      (receive statement feed opener).viewed v := by
  simp [receive]

instance : Commutes v writeTape := ⟨by simp [writeTape]⟩

instance : Commutes v select := ⟨by simp [select]⟩

@[simp] theorem lock_seen :
    (lock statement (opener.seen v)).through v = (lock statement opener).viewed v := by
  simp [lock]

instance : Commutes v (clearFile statement) := ⟨by simp [clearFile]⟩

@[simp] theorem matRead_seen (locking : Bool) :
    (matRead statement locking (opener.seen v)).through v =
      (matRead statement locking opener).viewed v := by
  simp [matRead]

instance (locking : Bool) : Commutes v (matWrite statement locking) := ⟨by simp [matWrite]⟩

@[simp] theorem locate_seen :
    (locate statement (opener.seen v)).through v = (locate statement opener).viewed v := by
  simp [locate]

instance : Commutes v inputTrap := ⟨by simp [inputTrap]⟩

instance : Commutes v execute := ⟨by simp [execute]⟩

instance : Commutes v calledName := ⟨by simp [calledName]⟩

instance : Commutes v callArguments := ⟨by simp [callArguments]⟩

instance : Commutes v call := ⟨by simp [call]⟩

instance (verb : OperandVerb) : Commutes v (operandOf verb) := ⟨by simp [operandOf]⟩

instance (verb : OptionalVerb) : Commutes v (optionalOf verb) := ⟨by simp [optionalOf]⟩

@[simp] theorem strayTerminator_seen (terminator opening : String) (place : Span) :
    (strayTerminator terminator opening (place.seen v)).through v =
      (strayTerminator terminator opening place).viewed v := by
  have hr := report_place_seen (v := v) (c := .strayTerminator terminator opening) rfl
  simp [strayTerminator, hr]

@[simp] theorem endUnit_seen :
    (endUnit (opener.seen v)).through v = (endUnit opener).viewed v := by
  have hr := report_place_seen (v := v) (c := .strayTerminator "END CASE" "BEGIN CASE") rfl
  simp only [endUnit, through_bind, through_eq_viewed, viewed_then, viewed_bind]
  congr 1
  funext s
  have hm := fun t : Token => hr (opener.span.merge t.span)
  simp only [Span.seen_merge] at hm
  rcases hs : s.rest with _ | ⟨t, _ | ⟨u, us⟩⟩ <;> simp [hs, hr, hm]

@[simp] theorem assignmentOrExpression_seen :
    (assignmentOrExpression (opener.seen v)).through v =
      (assignmentOrExpression opener).viewed v := by
  simp [assignmentOrExpression, chain_seen]

theorem led_seen {f g : Token → Parser Form}
    (h : ∀ t : Token, (g (t.seen v)).through v = (f t).viewed v) :
    (led g).through v = (led f).viewed v := by
  simp [led, h]

@[simp] theorem keywordForm_seen (k : Keyword) :
    (keywordForm statement k (opener.seen v)).through v =
      (keywordForm statement k opener).viewed v := by
  cases k <;> first
    | exact led_seen fun _ => by simp
    | exact assignmentOrExpression_seen opener
    | exact strayTerminator_seen _ _ opener.span
    | exact endUnit_seen opener

@[simp] theorem form_seen :
    (form statement (opener.seen v)).through v = (form statement opener).viewed v := by
  simp only [form, Token.seen_kind]
  split <;> simp

instance : Commutes v (statementStep statement) where
  through_eq := by
    simp only [statementStep, through_bind, through_eq_viewed, viewed_then, viewed_bind]
    congr 1
    funext s
    cases hr : s.rest <;> simp [hr]

end Statements

instance statement_commutes : Commutes v statement :=
  knot_seen (fun _ _ _ => inferInstance) ()

/-- A program is read alike before and after looking. -/
instance program_commutes : Commutes v program := ⟨by simp [program, Program.seen]⟩

end PickSyntax.Grammar
