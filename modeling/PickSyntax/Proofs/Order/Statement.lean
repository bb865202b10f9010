import PickSyntax.Proofs.Order.Heeding
import PickSyntax.Proofs.Structure.Bodies

/-!
# Bodies and lines heed comments

What is read on one line heeds comments as expressions do. A body does for another reason: it looks
for comments before each item and before its end, so whatever went on inside it, the comments that
are left stand behind all of its tokens. What remains is an `END` behind a clause that began on one
line, which crosses the line.
-/
namespace PickSyntax.Grammar

open PickSyntax.Parser

instance parameters_heeding : Heeding parameters :=
  .afterParen fun _ _ _ hp h hr ho => .closeList hp h hr ho ⟨rfl, rfl, rfl⟩

instance subroutine_heeding : Heeding subroutine := by
  unfold subroutine
  infer_instance

instance arrayBounds_heeding : Heeding arrayBounds := by
  unfold arrayBounds
  infer_instance

instance dim_heeding : Heeding dim := by
  unfold dim
  infer_instance

instance commonBlock_heeding : Heeding commonBlock := by
  unfold commonBlock
  infer_instance

instance common_heeding : Heeding common := by
  unfold common
  infer_instance

instance equateSense_heeding : Heeding equateSense := by
  unfold equateSense
  infer_instance

instance equate_heeding : Heeding equate := by
  unfold equate
  infer_instance

instance mat_heeding : Heeding mat := by
  unfold mat
  infer_instance

instance target_heeding : Heeding target := by
  refine .of fun s => .look ?_
  split
  next => exact Heeding.at _ s
  next t us hr =>
    refine .ite (fun h => ?_) fun _ => Heeding.at _ s
    refine (HeedsAt.skipOne (State.clear_of_onLine ?_)).andThen
    simp_all [State.onLine]

instance goKind_heeding : Heeding goKind := by
  unfold goKind
  infer_instance

instance jump_heeding (kind : JumpKind) : Heeding (jump kind) := by
  unfold jump
  infer_instance

instance go_heeding : Heeding go := by
  unfold go
  infer_instance

instance jumpOnKind_heeding : Heeding jumpOnKind := by
  unfold jumpOnKind
  infer_instance

instance jumpOn_heeding : Heeding jumpOn := by
  unfold jumpOn
  infer_instance

instance returnTo_heeding : Heeding returnTo := by
  unfold returnTo
  infer_instance

instance entrySeparator_heeding : Heeding entrySeparator := by
  unfold entrySeparator
  infer_instance

instance printStep_heeding (items : List PrintEntry) : Heeding (printStep items) := by
  refine @Heeding.bind _ _ _ _ inferInstance fun s => @Heeding.ite _ _ _ _ _ ?_ inferInstance
  refine @Heeding.bind _ _ _ _ inferInstance fun e => ?_
  refine @Heeding.bind _ _ _ _ inferInstance fun o => ?_
  split <;> infer_instance

instance printList_heeding : Heeding printList := by
  unfold printList
  infer_instance

instance print_heeding : Heeding print := by
  unfold print
  infer_instance

instance crt_heeding : Heeding crt := by
  unfold crt
  infer_instance

instance inputLength_heeding : Heeding inputLength := by
  unfold inputLength
  infer_instance

instance data_heeding : Heeding data := by
  unfold data
  infer_instance

instance switch_heeding (device : Device) : Heeding (switch device) := by
  unfold switch
  infer_instance

instance recordPath_heeding (ofAttr : Bool) : Heeding (recordPath ofAttr) := by
  refine @Heeding.bind _ _ _ _ inferInstance fun a => ?_
  refine @Heeding.bind _ _ _ _ inferInstance fun b => ?_
  split
  · infer_instance
  · refine @Heeding.bind _ _ _ _ inferInstance fun c => ?_
    split <;> infer_instance

instance destination_heeding : Heeding destination := by
  unfold destination
  infer_instance

instance writeTape_heeding : Heeding writeTape := by
  unfold writeTape
  infer_instance

instance select_heeding : Heeding select := by
  unfold select
  infer_instance

instance inputTrap_heeding : Heeding inputTrap := by
  unfold inputTrap
  infer_instance

instance execute_heeding : Heeding execute := by
  unfold execute
  infer_instance

instance calledName_heeding : Heeding calledName :=
  .of fun s => .look (.ite (fun h => (HeedsAt.next (s.clear_of_isAtOnLine h)).andThen)
    fun _ => Heeding.at _ s)

instance callArguments_heeding : Heeding callArguments :=
  .afterParen fun _ _ _ => arguments_heeds

instance call_heeding : Heeding call := by
  unfold call
  infer_instance

instance operandOf_heeding (verb : OperandVerb) : Heeding (operandOf verb) := by
  unfold operandOf
  infer_instance

instance optionalOf_heeding (verb : OptionalVerb) : Heeding (optionalOf verb) := by
  unfold optionalOf
  infer_instance

instance strayTerminator_heeding (terminator word : String) (span : Span) :
    Heeding (strayTerminator terminator word span) := by
  unfold strayTerminator
  infer_instance

instance assignmentOrExpression_heeding (opener : Token) :
    Heeding (assignmentOrExpression opener) := by
  have hassign (e : Expr) : Heeding (do
      if e.isAssignable && (← look).isAtOnLine (.symbol .equals) then
        skip 1
        return .assignment e (← expression)
      else return .expression (← chain expressionAt 0 e) : Parser Form) := by
    refine .of fun s => .look (.ite (fun h => ?_) fun _ => Heeding.at _ s)
    simp only [Bool.and_eq_true] at h
    exact (HeedsAt.skipOne (s.clear_of_isAtOnLine h.2)).andThen
  unfold assignmentOrExpression
  infer_instance

section Bodies
variable {s s' : State} {closing : Token → Prop} {statement : Parser Statement} [Onward statement]

/-- The comments in front of the next token are all taken at once. -/
theorem commentItems_placed (h : s.Sorted) : (commentItems.run s).2.Placed := by
  have hsorted : (commentItems.run s).2.Sorted := h.sublist (List.dropWhile_suffix _).sublist
  exact hsorted.placed (takeWhile_dropWhile _ _)

/-- Where all comments in front of the next token have been taken, those that are left stand behind
all tokens read so far. -/
theorem heeds_of_placed (ho : Ordered 0 s.rest) (hp : s.Poised) (hr : s.Reaches s')
    (hplaced : s'.Placed) : s.Heeds closing s' := by
  obtain ⟨us, hus⟩ := hr.rest
  refine ⟨⟨us, hus.symm, fun t ht => .inr fun _ => .inr fun c hc => ?_⟩, hr.comments,
    hp.sorted.sublist hr.comments.sublist, ?_, fun _ => hplaced.clear⟩
  · obtain ⟨u, hu, hle⟩ := hplaced c hc
    have hordered : Ordered 0 (us ++ s'.rest) := hus ▸ ho
    have htu := hordered.stop_le_start ht (List.mem_of_mem_head? hu)
    have hpos := hordered.bound t (List.mem_append_left _ ht)
    omega
  · exact fun t ht => hp.spaced t (tail_subset_of_suffix hr.rest ht)

/-- A body has taken the comments in front of the token at which it ends. -/
theorem body_heeds {block : Block} (ho : Ordered 0 s.rest) (hp : s.Poised) :
    Returns (body statement block) s fun _ s' => s.Heeds closing s' ∧ s'.Placed := by
  intro r s' hr
  have hreach := Onward.run_reaches hr
  have hsorted : s'.Sorted := hp.sorted.sublist hreach.comments.sublist
  have hplaced := hsorted.placed (body_placed block s r s' hr)
  exact ⟨heeds_of_placed ho hp hreach hplaced, hplaced⟩

instance reportUnclosed_heeding (owner : Owner) (d : String) : Heeding (reportUnclosed owner d) :=
  Heeding.report _

theorem closeBlock_heeds {owner : Owner} {d : String} {stop : BodyEnd} (h : s.Placed) :
    HeedsAt (closeBlock owner d stop) s := by
  cases stop with
  | closed => exact .skipOne h.clear
  | interrupted | exhausted => exact Heeding.at (reportUnclosed owner d) s

theorem nextName_heeds (h : s.Clear) : HeedsAt nextName s := by
  refine (HeedsAt.skipOne h).bind fun _ s' _ => .look (.ite (fun hn => ?_) fun _ => Heeding.at _ s')
  exact (HeedsAt.next (s'.clear_of_nameNext hn)).andThen

instance forGuard_heeding : Heeding forGuard := by
  refine .of fun s => .look ?_
  split
  next sense _ =>
    have hguard (h : s.Clear) : HeedsAt (loopGuard sense) s := (HeedsAt.skipOne h).andThen
    exact .ite (fun h => (hguard (s.clear_of_onLine h)).andThen) fun _ => Heeding.at _ s
  next => exact Heeding.at _ s

section Cases
variable {s₀ : State} {owner : Owner} (ho : Ordered 0 s.rest) (hp : s.Poised)
include ho hp

omit [Onward statement] in
theorem abandonCases_heeds {cases : List CaseArm} (hr : s.Reaches s₀) (hplaced : s₀.Placed) :
    Returns (abandonCases owner cases) s₀ fun r s' =>
      r.Says (fun _ => s.Reaches s') fun _ => s.Heeds closing s' := by
  refine Returns.bind fun _ s₁ h₁ => .pure ?_
  cases h₁
  exact (heeds_of_placed ho hp hr hplaced).congr ⟨rfl, rfl⟩ ⟨rfl, rfl, rfl⟩

theorem caseArmStep_heeds {p : CaseProgress} (hr : s.Reaches s₀) :
    Returns (caseArmStep statement owner p) s₀ fun r s' =>
      r.Says (fun _ => s.Reaches s') fun _ => s.Heeds closing s' := by
  refine Returns.bind fun r s₁ h₁ => ?_
  obtain ⟨clause, stop⟩ := r
  have hreach : s.Reaches s₁ := hr.trans (Onward.run_reaches h₁)
  have hbody : Returns (caseArm statement p.leading) s₀ fun _ s' =>
      s'.comments.takeWhile s'.isPending = [] := by
    refine Returns.bind fun _ _ _ => Returns.bind fun _ s₂ _ => Returns.bind fun r s₃ h₃ => ?_
    exact .look (.pure (body_placed .caseBody s₂ r s₃ h₃))
  have hsorted : s₁.Sorted := hp.sorted.sublist hreach.comments.sublist
  have hplaced := hsorted.placed (hbody _ s₁ h₁)
  cases stop with
  | closed => exact .pure hreach
  | interrupted | exhausted => exact abandonCases_heeds ho hp hreach hplaced

/-- A round ends the block behind a body, or where the comments have been taken. -/
theorem caseStep_heeds {p : CaseProgress} (hr : s.Reaches s₀) :
    Returns (caseStep statement owner p) s₀ fun r s' =>
      r.Says (fun _ => s.Reaches s') fun _ => s.Heeds closing s' := by
  refine Returns.bind fun cs s₁ h₁ => Returns.bind fun b s₂ h₂ => ?_
  have hreach : s.Reaches s₂ :=
    hr.trans ((Onward.run_reaches h₁).trans (Onward.run_reaches h₂))
  refine Returns.ite (fun _ => .pure hreach) fun hb => Returns.look ?_
  have hplaced : s₂.Placed := by
    have hsorted : s₀.Sorted := hp.sorted.sublist hr.comments.sublist
    have hplaced := commentItems_placed hsorted
    rw [h₁] at hplaced
    have h₂ := acceptAnywhere_returns _ s₁ b s₂ h₂
    simp only [Bool.not_eq_true] at hb
    subst hb h₂
    exact hplaced
  have habandon {cases : List CaseArm} :=
    @abandonCases_heeds _ closing _ owner ho hp cases hreach hplaced
  refine Returns.ite (fun _ => habandon) fun _ => Returns.ite (fun hend => ?_) fun _ => ?_
  · obtain ⟨t, u, us, hrest, -, -, hu⟩ := rest_of_atEndCase hend
    have hheeds : s.Heeds closing s₂ := heeds_of_placed ho hp hreach hplaced
    refine Returns.bind fun _ s₃ h₃ => .pure ?_
    exact hheeds.trans ((HeedsAt.skipTwo hplaced.clear hrest hu).run hheeds.poised h₃).lax
  · refine Returns.ite (fun _ => caseArmStep_heeds ho hp hreach) fun _ => ?_
    refine Returns.ite (fun _ => habandon) fun _ => ?_
    refine Returns.bind fun _ s₃ h₃ => Returns.bind fun _ s₄ h₄ => Returns.bind fun _ s₅ h₅ => ?_
    have hreach₄ := hreach.trans ((Onward.run_reaches h₃).trans (Onward.run_reaches h₄))
    exact .pure (hreach₄.trans (Onward.run_reaches h₅))

theorem caseArms_heeds :
    Returns (caseArms statement owner) s fun _ s' => s.Heeds closing s' :=
  Returns.loop (I := fun _ s' => s.Reaches s') (fun _ _ hr => caseStep_heeds ho hp hr) (.refl s)

end Cases
end Bodies

/-- An `END` is taken at once, and with it a `CASE` on its line. -/
theorem endUnit_heeds {opener : Token} {us : List Token} {s : State} (hr : s.rest = opener :: us)
    (h : s.Clear) (hk : opener.kind = .keyword .END) : HeedsAt (endUnit opener) s := by
  refine .look (.ite (fun _ => (HeedsAt.skipOne h).andThen) fun hlone => ?_)
  have hend : s.atEndCase = true := by
    simp_all [State.atLoneEnd, State.atEndCase, State.isAt, State.kind?]
  obtain ⟨t, u, vs, hrest, -, -, hu⟩ := rest_of_atEndCase hend
  refine (Heeding.at (report _) s).bind fun _ s' hr' => ?_
  cases hr'
  refine HeedsAt.andThen (.skipTwo ?_ hrest hu)
  exact h

theorem led_heeds {p : Token → Parser Form} [∀ t, Heeding (p t)] {s : State} (h : s.Clear) :
    HeedsAt (led p) s :=
  (HeedsAt.next h).andThen

end PickSyntax.Grammar
