import PickSyntax.Proofs.Joined.Expression

/-!
# Statements of one line across an end

Declarations, jumps and the statements that exchange data, as far as they hold no statements
themselves. All of them keep to their line, so what stands behind the end of the tokens is
not looked at.
-/
namespace PickSyntax.Grammar

open PickSyntax.Parser PickSyntax.Parser.Seam

variable {m : Seam} {n : Nat}

/-- A parenthesis that closes at once may stand on another line. It is looked for only after
the opening one, and where the tokens end after that a name is missed. -/
theorem parameters_alike : m.Alike false n parameters parameters m.Same := by
  refine (Alike.acceptSymbol (y := .leftParen) (by decide)).bind fun _ _ hb => .ite hb ?_ (.pure .nil)
  intro s S hs hl
  by_cases hc : m.cut ∧ s.rest = []
  · refine .cutoff hc.1 ?_ (by simp)
    simp [run_bind, acceptAnywhere, commaList, name, expected, reportExpected, report, State.isAt,
      State.kind?, State.nameNext, hc.2]
  · refine .ifAnywhere hl (not_and.mp hc) (fun _ _ _ hl => .pure hl .nil) fun _ => ?_
    exact (Alike.name.commaList.bind fun _ _ hv =>
      (Alike.requireSymbol (y := .rightParen) (by decide)).bind fun _ _ _ => .pure hv) s S hs hl

theorem subroutine_alike : m.Alike false n subroutine subroutine m.Same := by
  intro s S hs hl
  refine .ite hl.nameNext (fun _ => ?_) fun _ => .pure hl rfl
  refine (Alike.name.bind fun v w hv => parameters_alike.bind fun ps ps' hps => .pure ?_) s S hs hl
  simp_all [Same, relocate]

theorem arrayBounds_alike : m.Alike false n arrayBounds arrayBounds m.Same := by
  intro s S hs hl
  by_cases hc : m.cut ∧ s.rest = []
  · refine .cutoff hc.1 ?_ (by simp)
    simp [arrayBounds, run_bind, name, expected, reportExpected, report, State.nameNext, hc.2]
  refine .look ?_
  obtain ⟨hr, hR⟩ | ⟨t, ts, u, us, hr, hR, hu, -⟩ := hl.both (not_and.mp hc) <;> rw [hr, hR]
  · refine (Alike.name s S hs hl).bind (fun v w s' S' hrun _ _ => ?_) fun _ _ h => h.elim
    simp [name, run_bind, expected, reportExpected, report, State.nameNext, hr] at hrun
  · refine (Alike.name.bind fun v w hv => (Alike.requireSymbol (y := .leftParen) (by decide)).bind
      fun _ _ _ => ((oneOrTwo_alike expressionAt_alike).loosen).bind fun es es' hes =>
        (Alike.requireSymbol (y := .rightParen) (by decide)).bind fun _ _ _ s S _ hl =>
          .look (.pure hl ?_)) s S hs hl
    have := hl.since hu.start
    simp_all [Same, relocate, ArrayBounds.relocate]

theorem dim_alike : m.Alike false n dim dim m.Same :=
  arrayBounds_alike.commaList.bind fun _ _ h => .pure (by simp_all [Same, relocate])

theorem commonBlock_alike : m.Alike false n commonBlock commonBlock m.Same :=
  (Alike.acceptSymbol (y := .slash) (by decide)).bind fun _ _ hb => .ite hb
    (Alike.name.bind fun _ _ hv => (Alike.requireSymbol (y := .slash) (by decide)).bind fun _ _ _ =>
      .pure (.some hv))
    (.pure .none)

theorem common_alike : m.Alike false n common common m.Same :=
  commonBlock_alike.bind fun _ _ _ => Alike.name.commaList.bind fun _ _ _ =>
    .pure (by simp_all [Same, relocate])

theorem equateSense_alike : m.Alike false n equateSense equateSense Eq :=
  Alike.acceptKeyword.bind fun _ _ hb => .ite hb (.pure rfl) <|
    Alike.acceptKeyword.bind fun _ _ hb => .ite hb (.pure rfl) .expected

theorem equate_alike : m.Alike false n equate equate m.Same :=
  Alike.name.bind fun _ _ _ => equateSense_alike.bind fun _ _ _ => expression_alike.bind
    fun _ _ _ => .pure (by simp_all [Same, relocate])

theorem mat_alike : m.Alike false n mat mat m.Same :=
  Alike.name.bind fun _ _ _ => (Alike.requireSymbol (y := .equals) (by decide)).bind fun _ _ _ =>
    expression_alike.bind fun _ _ _ => .pure (by simp_all [Same, relocate])

theorem target_alike : m.Alike false n target target m.Same := by
  intro s S hs hl
  by_cases hc : m.cut ∧ s.rest = []
  · refine .cutoff hc.1 ?_ (by simp)
    simp [target, run_bind, expected, reportExpected, report, hc.2]
  refine .look ?_
  obtain ⟨hr, hR⟩ | ⟨t, ts, u, us, hr, hR, hu, hk⟩ := hl.both (not_and.mp hc) <;> rw [hr, hR]
  · exact .expected hl
  · refine .ite (by rw [hu.kind, (hk rfl).lineStart]) (fun _ => ?_) fun _ => .expected hl
    refine .skipOne hl hr fun _ _ _ _ _ hp => .pure hp ?_
    have := hu.span
    simp_all [Same, relocate, Target.relocate, hu.text, hu.kind]

theorem goKind_alike : m.Alike false n goKind goKind Eq :=
  Alike.acceptKeyword.bind fun _ _ hb => .ite hb (.pure rfl) <|
    Alike.acceptKeyword.bind fun _ _ _ => .pure rfl

theorem jump_alike (kind : JumpKind) : m.Alike false n (jump kind) (jump kind) m.Same :=
  target_alike.bind fun _ _ _ => .pure (by simp_all [Same, relocate])

theorem go_alike : m.Alike false n go go m.Same :=
  goKind_alike.bind fun _ _ h => h ▸ jump_alike _

theorem jumpOnKind_alike : m.Alike false n jumpOnKind jumpOnKind Eq :=
  Alike.acceptKeyword.bind fun _ _ hb => .ite hb (.pure rfl) <|
    Alike.acceptKeyword.bind fun _ _ hb => .ite hb (.pure rfl) <|
      Alike.acceptKeyword.bind fun _ _ hb => .ite hb goKind_alike .expected

theorem jumpOn_alike : m.Alike false n jumpOn jumpOn m.Same :=
  expression_alike.bind fun _ _ _ => jumpOnKind_alike.bind fun _ _ _ =>
    target_alike.commaList.bind fun _ _ _ => .pure (by simp_all [Same, relocate])

theorem returnTo_alike : m.Alike false n returnTo returnTo m.Same :=
  target_alike.afterKeyword?.bind fun _ _ _ => .pure (by simp_all [Same, relocate])

theorem entrySeparator_alike : m.Alike false n entrySeparator entrySeparator Eq :=
  (Alike.acceptSymbol (y := .comma) (by decide)).bind fun _ _ hb => .ite hb (.pure rfl) <|
    (Alike.acceptSymbol (y := .colon) (by decide)).bind fun _ _ hb => .ite hb (.pure rfl) (.pure rfl)

theorem printStep_alike {items items' : List PrintEntry} (hi : m.Same items items') :
    m.Alike false n (printStep items) (printStep items') (Step.Like m.Same m.Same) := by
  intro s S hs hl
  refine .ite hl.expressionNext (fun _ => ?_) fun _ => .pure hl hi
  refine (expression_alike.andThen (fun e => ?_) (fun e => ?_) fun e e' he => ?_) s S hs hl
  · refine @Onward.bind _ _ _ _ inferInstance fun o => ?_
    cases o <;> infer_instance
  · refine @Onward.bind _ _ _ _ inferInstance fun o => ?_
    cases o <;> infer_instance
  have hentry (o : Option Separator) : m.Same (⟨e, o⟩ : PrintEntry) ⟨e', o⟩ := by
    simp_all [Same, relocate, PrintEntry.relocate]
  refine entrySeparator_alike.andThen (fun o => ?_) (fun o => ?_) fun o o' ho => ?_
  · cases o <;> infer_instance
  · cases o <;> infer_instance
  · subst ho
    cases o with
    | none => exact .pure (hi.append (.cons (hentry _) .nil))
    | some => exact .pure (hi.append (.cons (hentry _) .nil))

theorem printList_alike : m.Alike false n printList printList m.Same :=
  Alike.loop (fun _ _ h => printStep_alike h) .nil

theorem print_alike : m.Alike false n print print m.Same :=
  expression_alike.afterKeyword?.bind fun _ _ _ => printList_alike.bind fun _ _ _ =>
    .pure (by simp_all [Same, relocate])

theorem crt_alike : m.Alike false n crt crt m.Same :=
  printList_alike.bind fun _ _ _ => .pure (by simp_all [Same, relocate])

theorem inputLength_alike : m.Alike false n inputLength inputLength m.Same :=
  expression_alike.afterComma?.bind fun _ _ hv => (Alike.acceptSymbol (y := .colon) (by decide)).bind
    fun _ _ hb => .pure (.pair hv hb)

theorem data_alike : m.Alike false n data data m.Same :=
  expression_alike.commaList.bind fun _ _ _ => .pure (by simp_all [Same, relocate])

theorem switch_alike (device : Device) : m.Alike false n (switch device) (switch device) m.Same :=
  Alike.acceptKeyword.bind fun _ _ hb => .ite hb (.pure rfl) <|
    Alike.acceptKeyword.bind fun _ _ hb => .ite hb (.pure rfl) .expected

theorem destination_alike : m.Alike false n destination destination Eq :=
  Alike.acceptKeyword.bind fun _ _ hb => .ite hb (.pure rfl) <|
    Alike.acceptKeyword.bind fun _ _ hb => .ite hb (.pure rfl) .expected

theorem recordPath_alike (ofAttr : Bool) :
    m.Alike false n (recordPath ofAttr) (recordPath ofAttr) m.Same := by
  have after {f : Option Expr → Parser RecordPath} (hf : ∀ c, Onward (f c)) :
      Onward (afterComma? expression >>= f) := inferInstance
  refine expression_alike.andThen (fun a => after fun b => ?_) (fun a => after fun b => ?_)
    fun a a' ha => ?_
  iterate 2
    cases b with
    | none => infer_instance
    | some b => exact after fun c => by cases c <;> infer_instance
  refine expression_alike.afterComma?.andThen (fun b => ?_) (fun b => ?_) fun b b' hb => ?_
  iterate 2
    cases b with
    | none => infer_instance
    | some b => exact after fun c => by cases c <;> infer_instance
  obtain ⟨rfl, rfl⟩ | ⟨b, b', rfl, rfl, hb⟩ := hb.option
  · exact .pure (by simp_all [Same, relocate, RecordPath.relocate])
  refine expression_alike.afterComma?.andThen (fun c => by cases c <;> infer_instance)
    (fun c => by cases c <;> infer_instance) fun c c' hc => ?_
  obtain ⟨rfl, rfl⟩ | ⟨c, c', rfl, rfl, hc⟩ := hc.option
  · exact .pure (by cases ofAttr <;> simp_all [Same, relocate, RecordPath.relocate])
  · exact .pure (by simp_all [Same, relocate, RecordPath.relocate])

theorem writeTape_alike : m.Alike false n writeTape writeTape m.Same :=
  expression_alike.bind fun _ _ _ => destination_alike.bind fun _ _ _ => expression_alike.bind
    fun _ _ _ => .pure (by simp_all [Same, relocate])

theorem select_alike : m.Alike false n select select m.Same :=
  expression?_alike.bind fun _ _ _ => Alike.name.afterKeyword?.bind fun _ _ _ =>
    .pure (by simp_all [Same, relocate])

theorem inputTrap_alike : m.Alike false n inputTrap inputTrap m.Same :=
  expression_alike.bind fun _ _ _ => target_alike.afterComma?.bind fun _ _ _ =>
    .pure (by simp_all [Same, relocate])

theorem execute_alike : m.Alike false n execute execute m.Same :=
  expression_alike.bind fun _ _ _ => Alike.name.afterKeyword?.bind fun _ _ _ =>
    Alike.name.afterKeyword?.bind fun _ _ _ => .pure (by simp_all [Same, relocate])

theorem calledName_alike : m.Alike false n calledName calledName m.Same := by
  intro s S hs hl
  refine .ite (hl.isAtOnLine (by simp)) (fun h => ?_) fun _ =>
    (Alike.name.bind fun _ _ hv => .pure (.pair hv rfl)) s S hs hl
  obtain ⟨t, ts, hr, -, -⟩ := State.rest_of_isAtOnLine h
  exact .next hl hr fun u _ _ hu _ hp => .pure hp (by simp [Same, relocate, hu.text])

theorem callArguments_alike : m.Alike false n callArguments callArguments m.Same :=
  (Alike.acceptSymbol (y := .leftParen) (by decide)).bind fun _ _ hb => .ite hb
    (arguments_alike expressionAt_alike (fun _ => .refl) fun _ => .refl).loosen (.pure .nil)

theorem call_alike : m.Alike false n call call m.Same :=
  calledName_alike.bind fun _ _ _ => callArguments_alike.bind fun _ _ _ =>
    .pure (by simp_all [Same, relocate])

theorem operandOf_alike (verb : OperandVerb) :
    m.Alike false n (operandOf verb) (operandOf verb) m.Same :=
  expression_alike.bind fun _ _ _ => .pure (by simp_all [Same, relocate])

theorem optionalOf_alike (verb : OptionalVerb) :
    m.Alike false n (optionalOf verb) (optionalOf verb) m.Same :=
  expression?_alike.bind fun _ _ _ => .pure (by simp_all [Same, relocate])

end PickSyntax.Grammar
