import PickSyntax.Grammar.Exchange
import PickSyntax.Proofs.Content.Gathering

/-!
# The content of one-line forms

Declarations, jumps, print lists and the verbs with operands gather by the rules of their parts.
Only the parts with a range of their own need an argument: expressions, targets and the bounds
of an array.
-/
namespace PickSyntax.Grammar

open PickSyntax.Parser

variable {n : Nat} {acc : Content}

theorem expressionAt_gathers (level : Nat) : Gathers n ∅ (expressionAt level) :=
  fun s _ hs => (expressionAt_exact level s).gathersAt hs fun _ _ _ ho h => ⟨h.over 0 ho, rfl⟩

theorem expression_gathers : Gathers n ∅ expression := expressionAt_gathers 0

theorem expression?_gathers : Gathers n ∅ expression? :=
  .look fun s hn hs => .ite (fun _ => expression_gathers.map (fun _ => by simp) s hn hs)
    fun _ => .give (by simp)

theorem arguments_gathers : Gathers n ∅ (arguments expressionAt) := by
  refine fun s _ hs => (arguments_meets (nested_over fun level s _ => expressionAt_exact level s)
    (Nat.lt_succ_self s.rest.length)).gathersAt hs ?_
  rintro _ args s' ho ⟨us, closing, rfl, -, h⟩
  rw [Expr.content_list]
  exact ⟨(h 0 ho.append_left).behind, rfl⟩

theorem target_gathers : Gathers n ∅ target := by
  refine .look fun s hn hs => ?_
  cases hr : s.rest with
  | nil => exact expected_gathers s hn hs
  | cons t us =>
    refine .ite (fun _ => ?_) fun _ => expected_gathers s hn hs
    refine (Meets.bind (R := fun ts (v : Target) _ => ts = [t] ∧ v.span = t.span)
      (Meets.skipOne hr (Meets.pure ⟨rfl, rfl⟩))).gathersAt hs ?_
    rintro _ v s' - ⟨rfl, hv⟩
    refine ⟨?_, rfl⟩
    change Overlay [t] [⟨v.span, []⟩]
    rw [hv]
    exact .token

theorem parameters_gathers : Gathers n ∅ parameters :=
  accept_gathers.next fun _ => .ite
    (fun _ => acceptAnywhere_gathers.next fun _ => .ite (fun _ => .give (by simp)) fun _ =>
      (commaList_gathers name_gathers).next fun _ => require_gathers.next fun _ => .give (by simp))
    fun _ => .give (by simp)

theorem subroutine_gathers : Gathers n ∅ subroutine :=
  .look fun _ hn hs => .ite
    (fun _ => .here (name_gathers.next fun _ => parameters_gathers.next fun _ => .give (by simp))
      hn hs)
    fun _ => .give (by simp)

theorem Meets.name {s : State} {d : String} :
    Meets (name d) s fun ts _ s' => ∃ t us, ts = [t] ∧ s.rest = t :: us ∧ s' = s.past t us := by
  refine Meets.look (Meets.ite (fun h => ?_) fun _ => Meets.expected)
  obtain ⟨t, us, hr, -⟩ := State.rest_of_nameNext h
  exact Meets.bind (Meets.next hr (Meets.pure ⟨t, us, rfl, hr, rfl⟩))

/-- The bounds of an array begin with its name and end with a parenthesis. -/
theorem arrayBounds_meets (s : State) : Meets arrayBounds s fun ts d _ =>
    ∃ t o ws c, ts = t :: o :: (ws ++ [c]) ∧ Over ws (d.rows :: d.columns.toList) ∧
      d.span = ⟨t.span.start, max c.span.stop t.span.start⟩ := by
  refine Meets.look (Meets.name.andThen fun ts array s₁ _ ⟨t, us, hts, hr, _⟩ => ?_)
  refine Meets.bind (Meets.require fun o vs ho _ => ?_)
  refine (oneOrTwo_meets (nested_over fun level s _ => expressionAt_exact level s)
    (Nat.lt_succ_self _)).andThen fun ws bounds s₂ _ h => ?_
  refine Meets.bind (Meets.require fun c vs _ _ => Meets.look (Meets.pure ?_))
  refine ⟨t, o, ws, c, by simp [hts], h, ?_⟩
  rw [hr]
  rfl

theorem arrayBounds_gathers : Gathers n ∅ arrayBounds := by
  refine fun s _ hs => (arrayBounds_meets s).gathersAt hs ?_
  rintro _ ⟨array, rows, columns, span⟩ s' ho ⟨t, o, ws, c, rfl, h, hspan⟩
  have hparts : (content rows ++ content columns).extents =
      Expr.extents (rows :: columns.toList) := by
    cases columns <;> rfl
  have hlast : (t :: o :: (ws ++ [c])).getLast? = some c := by
    rw [← List.cons_append, ← List.cons_append, List.getLast?_concat]
  refine ⟨?_, ?_⟩
  · obtain rfl : span = _ := hspan
    change Overlay _ [⟨_, (content rows ++ content columns).extents⟩]
    rw [hparts]
    exact .close ho hlast (h 0 ho.tail.tail.append_left).behind.cons.cons
  · cases columns <;> rfl

theorem dim_gathers : Gathers n ∅ dim :=
  (commaList_gathers arrayBounds_gathers).map fun _ => by simp

theorem commonBlock_gathers : Gathers n ∅ commonBlock :=
  accept_gathers.next fun _ => .ite
    (fun _ => name_gathers.next fun _ => require_gathers.next fun _ => .give (by simp))
    fun _ => .give (by simp)

theorem common_gathers : Gathers n ∅ common :=
  commonBlock_gathers.next fun _ => (commaList_gathers name_gathers).next fun _ => .give (by simp)

theorem equateSense_gathers : Gathers n ∅ equateSense :=
  accept_gathers.next fun _ => .ite (fun _ => .give (by simp)) fun _ =>
    accept_gathers.next fun _ => .ite (fun _ => .give (by simp)) fun _ => expected_gathers

theorem equate_gathers : Gathers n ∅ equate :=
  name_gathers.next fun _ => equateSense_gathers.next fun _ =>
    expression_gathers.map fun _ => by simp

theorem mat_gathers : Gathers n ∅ mat :=
  name_gathers.next fun _ => require_gathers.next fun _ => expression_gathers.map fun _ => by simp

theorem goKind_gathers : Gathers n ∅ goKind :=
  accept_gathers.next fun _ => .ite (fun _ => .give (by simp)) fun _ =>
    accept_gathers.next fun _ => .give (by simp)

theorem jump_gathers (kind : JumpKind) : Gathers n ∅ (jump kind) :=
  target_gathers.map fun _ => by simp

theorem go_gathers : Gathers n ∅ go := goKind_gathers.next fun kind => jump_gathers kind

theorem jumpOnKind_gathers : Gathers n ∅ jumpOnKind :=
  accept_gathers.next fun _ => .ite (fun _ => .give (by simp)) fun _ =>
    accept_gathers.next fun _ => .ite (fun _ => .give (by simp)) fun _ =>
      accept_gathers.next fun _ => .ite (fun _ => goKind_gathers) fun _ => expected_gathers

theorem jumpOn_gathers : Gathers n ∅ jumpOn :=
  expression_gathers.bind fun _ => jumpOnKind_gathers.next fun _ =>
    (commaList_gathers target_gathers).bind fun _ => .give (by simp)

theorem returnTo_gathers : Gathers n ∅ returnTo :=
  (afterKeyword_gathers target_gathers).map fun _ => by simp

theorem entrySeparator_gathers : Gathers n ∅ entrySeparator :=
  accept_gathers.next fun _ => .ite (fun _ => .give (by simp)) fun _ =>
    accept_gathers.next fun _ => .ite (fun _ => .give (by simp)) fun _ => .give (by simp)

theorem printStep_gathers (items : List PrintEntry) :
    Gathers n (content items) (printStep items) := by
  refine .look fun _ hn hs => .ite (fun _ => ?_) fun _ => .give (by simp)
  refine .here (expression_gathers.bind fun e => entrySeparator_gathers.next fun sep => ?_) hn hs
  cases sep <;> exact .give (by simp)

theorem printList_gathers : Gathers n ∅ printList := Gathers.loop printStep_gathers []

theorem print_gathers : Gathers n ∅ print :=
  (afterKeyword_gathers expression_gathers).bind fun _ => printList_gathers.bind fun _ =>
    .give (by simp)

theorem crt_gathers : Gathers n ∅ crt := printList_gathers.map fun _ => by simp

theorem inputLength_gathers : Gathers n ∅ inputLength :=
  (afterComma_gathers expression_gathers).bind fun _ => accept_gathers.next fun _ =>
    .give (by simp)

theorem data_gathers : Gathers n ∅ data :=
  (commaList_gathers expression_gathers).map fun _ => by simp

theorem switch_gathers (device : Device) : Gathers n ∅ (switch device) :=
  accept_gathers.next fun _ => .ite (fun _ => .give (by simp)) fun _ =>
    accept_gathers.next fun _ => .ite (fun _ => .give (by simp)) fun _ => expected_gathers

theorem inputTrap_gathers : Gathers n ∅ inputTrap :=
  expression_gathers.bind fun _ => (afterComma_gathers target_gathers).bind fun _ =>
    .give (by simp)

/-- Whichever operand is taken for the file, the order is that of writing. -/
theorem recordPath_gathers (ofAttr : Bool) : Gathers n ∅ (recordPath ofAttr) := by
  refine expression_gathers.bind fun a => (afterComma_gathers expression_gathers).bind fun b => ?_
  cases b with
  | none => exact .give (by simp)
  | some b =>
    refine (afterComma_gathers expression_gathers).bind fun c => ?_
    cases c with
    | none => cases ofAttr <;> exact .give (by simp)
    | some c => exact .give (by simp)

theorem destination_gathers : Gathers n ∅ destination :=
  accept_gathers.next fun _ => .ite (fun _ => .give (by simp)) fun _ =>
    accept_gathers.next fun _ => .ite (fun _ => .give (by simp)) fun _ => expected_gathers

theorem writeTape_gathers : Gathers n ∅ writeTape :=
  expression_gathers.bind fun _ => destination_gathers.next fun _ => expression_gathers.bind
    fun _ => .give (by simp)

theorem select_gathers : Gathers n ∅ select :=
  expression?_gathers.bind fun _ => (afterKeyword_gathers name_gathers).next fun _ =>
    .give (by simp)

theorem execute_gathers : Gathers n ∅ execute :=
  expression_gathers.bind fun _ => (afterKeyword_gathers name_gathers).next fun _ =>
    (afterKeyword_gathers name_gathers).next fun _ => .give (by simp)

theorem calledName_gathers : Gathers n ∅ calledName :=
  .look fun _ hn hs => .ite (fun _ => .here (next_gathers.next fun _ => .give (by simp)) hn hs)
    fun _ => .here (name_gathers.next fun _ => .give (by simp)) hn hs

theorem callArguments_gathers : Gathers n ∅ callArguments :=
  accept_gathers.next fun _ => .ite (fun _ => arguments_gathers) fun _ => .give (by simp)

theorem call_gathers : Gathers n ∅ call :=
  calledName_gathers.bind fun _ => callArguments_gathers.bind fun _ => .give (by simp)

theorem operandOf_gathers (verb : OperandVerb) : Gathers n ∅ (operandOf verb) :=
  expression_gathers.map fun _ => by simp

theorem optionalOf_gathers (verb : OptionalVerb) : Gathers n ∅ (optionalOf verb) :=
  expression?_gathers.map fun _ => by simp

end PickSyntax.Grammar
