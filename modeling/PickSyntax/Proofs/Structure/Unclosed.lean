import Mathlib.Data.List.Nodup
import PickSyntax.Proofs.Structure.Program
import PickSyntax.Proofs.Structure.Reports

/-!
# An open construct is reported once

A statement owes the keyword that it begins with to the parser of its form, and the form
reports it at most once: when a body ends without its terminator, the report is the last that
the form does with its clause or its guard, and no later part of the form has a keyword to
report. Between two statements nothing is owed. Since no two tokens of a source start at the
same byte, no two reports do.
-/
namespace PickSyntax

open PickSyntax.Parser PickSyntax.Grammar

namespace Grammar

/-- Reports about the owner start at the token, which is the keyword that opens it. -/
class Names (t : Token) (owner : Owner) : Prop where
  opens : ∀ terminator, t.Opens ⟨.openBlock owner.name terminator, owner.span⟩

theorem names_word {t : Token} {k : Keyword} {word : String} {span : Span}
    (hk : t.kind = .keyword k) (hw : word ∈ k.constructs) (hs : span.start = t.span.start) :
    Names t ⟨word, span⟩ :=
  ⟨fun terminator => ⟨k, word, terminator, hk, hw, rfl, hs⟩⟩

instance beginStatement_reports : Reports [] beginStatement where
  reported _ := .of_suffix List.suffix_rfl rfl

instance endStatement_reports (left : Nat) : Reports [] (endStatement left) :=
  .past fun _ => .choose (.pure _) (.past fun _ => .recover left)

instance commentItems_reports : Reports [] commentItems :=
  .past fun _ => .pure _

section Statements
variable {statement : Parser Statement} [hstatement : Reports [] statement]

instance item_reports : Reports [] (item statement) := by
  refine .past fun s => ?_
  cases label? s with
  | some l => exact .past fun _ => .pure _
  | none =>
    refine .past fun _ => .andThen .catchFailure fun o => ?_
    cases o with
    | none => exact .past fun _ => .pure _
    | some st => exact .past fun _ => .pure _

instance bodyStep_reports (block : Block) (items : List Item) :
    Reports [] (bodyStep statement block items) := by
  refine .past fun cs => .past fun _ => .choose (.pure _) (.past fun s => ?_)
  refine .choose (.pure _) (.choose (.pure _) (.past fun outer => .choose (.pure _) ?_))
  exact .andThen item_reports fun _ => .pure _

instance body_reports (block : Block) : Reports [] (body statement block) :=
  @Reports.inBlock _ _ _ (.loop [])

instance programStep_reports (items : List Item) :
    Reports [] (programStep statement items) := by
  refine .past fun cs => .past fun _ => .choose (.pure _) (.past fun s => .choose (.pure _) ?_)
  exact .andThen item_reports fun _ => .pure _

instance programItems_reports : Reports [] (programItems statement) :=
  .loop []

instance clauseStatement_reports : Reports [] (clauseStatement statement) :=
  .past fun _ => .choose (.past fun _ => hstatement) (.expected _)

instance onErrorClause_reports : Reports [] (onErrorClause statement) := by
  refine .past fun _ => .choose (.past fun _ => ?_) (.pure _)
  exact .andThen clauseStatement_reports fun _ => .pure _

instance lockedClause_reports : Reports [] (lockedClause statement) :=
  .afterKeyword? .LOCKED

variable {opener : Token} {owner : Owner} [Names opener owner]

instance reportUnclosed_reports (d : String) : Reports [opener] (reportUnclosed owner d) :=
  Reports.report_opens (Names.opens d)

instance closeBlock_reports (d : String) (stop : BodyEnd) :
    Reports [opener] (closeBlock owner d stop) := by
  cases stop with
  | closed => exact @Reports.weaken _ _ _ _ (.skip 1)
  | interrupted | exhausted => exact reportUnclosed_reports d

instance elseBlock_reports : Reports [opener] (elseBlock statement owner) := by
  refine .andThen (body_reports _) fun (items, stop) => ?_
  exact .settled (closeBlock_reports "END" stop) fun _ => .pure _

instance elseBranch_reports : Reports [opener] (elseBranch statement owner) := by
  refine .past fun _ => .choose ?_ ?_
  · exact .andThen clauseStatement_reports fun _ => .pure _
  · exact .settled elseBlock_reports fun _ => .pure _

instance thenBlock_reports : Reports [opener] (thenBlock statement owner) := by
  refine .andThen (body_reports _) fun (items, stop) => .choose (.past fun _ => ?_) ?_
  · refine .choose (.past fun _ => .past fun _ => .choose ?_ (.pure _)) (.past fun _ => ?_)
    · exact .settled elseBranch_reports fun _ => .pure _
    · exact .settled elseBlock_reports fun _ => .pure _
  · exact .settled (reportUnclosed_reports "END") fun _ => .pure _

instance closeInline_reports (clause : Clause) : Reports [] (closeInline clause) :=
  .past fun _ => .choose (.past fun _ => .pure _) (.pure _)

instance thenInline_reports : Reports [opener] (thenInline statement owner) := by
  refine .andThen clauseStatement_reports fun st => .past fun _ => .choose ?_ .weaken
  exact .settled elseBranch_reports fun _ => closeInline_reports _

instance clause?_reports : Reports [opener] (clause? statement owner) := by
  refine .past fun _ => .choose (.past fun _ => .choose ?_ ?_) (.past fun _ => .choose ?_ (.pure _))
  · exact .settled thenInline_reports fun _ => .pure _
  · exact .settled thenBlock_reports fun _ => .pure _
  · exact .settled elseBranch_reports fun _ => .andThen (closeInline_reports _) fun _ => .pure _

instance requiredClause_reports : Reports [opener] (requiredClause statement owner) := by
  refine .settled clause?_reports fun o => ?_
  cases o with
  | some c => exact .pure c
  | none => exact .past fun s => .andThen (.report rfl) fun _ => .fail

instance loopGuard_reports (sense : GuardSense) : Reports [] (loopGuard sense) :=
  .past fun _ => .past fun _ => .pure _

instance forGuard_reports : Reports [] forGuard := by
  refine .past fun s => ?_
  cases guardSense? s with
  | some sense => exact .choose (.andThen (loopGuard_reports sense) fun _ => .pure _) (.pure _)
  | none => exact .pure _

instance nextName_reports : Reports [] nextName :=
  .past fun _ => .past fun _ => .choose (.past fun _ => .pure _) (.pure _)

instance loopRest_reports (sense : GuardSense) :
    Reports [opener] (loopRest statement owner sense) := by
  refine .past fun guard => .past fun _ => .andThen (body_reports _) fun (items, stop) => ?_
  exact .settled (closeBlock_reports "REPEAT" stop) fun _ => .pure _

instance caseArm_reports (leading : List Item) : Reports [] (caseArm statement leading) := by
  refine .past fun opener => .past fun condition => .andThen (body_reports _) fun _ => ?_
  exact .past fun _ => .pure _

instance abandonCases_rounds (cases : List CaseArm) :
    Rounds [opener] (abandonCases owner cases) :=
  Rounds.last

instance caseArmStep_rounds (p : CaseProgress) :
    Rounds [opener] (caseArmStep statement owner p) := by
  refine @Rounds.bind _ _ _ _ _ _ (caseArm_reports _) fun (clause, stop) => ?_
  cases stop with
  | closed => exact .of_reports
  | interrupted | exhausted => exact abandonCases_rounds _

instance caseStep_rounds (p : CaseProgress) : Rounds [opener] (caseStep statement owner p) := by
  refine .past fun cs => .past fun _ => .choose .of_reports (.past fun s => ?_)
  refine .choose (abandonCases_rounds _) (.choose .of_reports ?_)
  exact .choose (caseArmStep_rounds _) (.choose (abandonCases_rounds _) .of_reports)

instance caseArms_reports : Reports [opener] (caseArms statement owner) :=
  .loop _

end Statements

section Forms
variable {statement : Parser Statement} [Reports [] statement] {opener : Token}

theorem ifThen_reports (hk : opener.kind = .keyword .IF) :
    Reports [opener] (ifThen statement opener) := by
  have : Names opener ⟨"IF", opener.span⟩ := names_word hk (by decide) rfl
  exact .past fun condition => .settled requiredClause_reports fun _ => .pure _

theorem forNext_reports (hk : opener.kind = .keyword .FOR) :
    Reports [opener] (forNext statement opener) := by
  have : Names opener ⟨"FOR", opener.span⟩ := names_word hk (by decide) rfl
  refine .past fun counter => .past fun _ => .past fun start => .past fun _ => .past fun limit => ?_
  refine .past fun step => .past fun guard => .andThen (body_reports _) fun (items, stop) => ?_
  refine .choose (.past fun _ => .pure _) ?_
  exact .settled (reportUnclosed_reports "NEXT") fun _ => .pure _

theorem loopRepeat_reports (hk : opener.kind = .keyword .LOOP) :
    Reports [opener] (loopRepeat statement opener) := by
  have : Names opener ⟨"LOOP", opener.span⟩ := names_word hk (by decide) rfl
  refine .andThen (body_reports _) fun (before, stop) => .choose (.past fun s => ?_) ?_
  · cases guardSense? s with
    | some sense => exact .settled (loopRest_reports sense) fun _ => .pure _
    | none => exact .past fun _ => .pure _
  · exact .settled (reportUnclosed_reports "REPEAT") fun _ => .pure _

/-- The owner of a `BEGIN CASE` covers two words, and starts at the first. -/
theorem beginCase_reported {s : State} {us : List Token} (hr : s.rest = opener :: us)
    (hk : opener.kind = .keyword .BEGIN) (ho : Ordered 0 s.rest) :
    (s.past opener us).Reported [opener] ((beginCase statement opener).run (s.past opener us)).2 := by
  rw [hr] at ho
  have ho' : Ordered 0 (s.past opener us).rest := ho.tail
  have h := (Reports.requireKeyword .CASE).reported ho'
  rcases hp : (requireKeyword .CASE).run (s.past opener us) with ⟨_ | word, s'⟩ <;> rw [hp] at h
  · rw [beginCase, run_bind_none hp]
    exact h.weaken
  · obtain ⟨vs, hw, -, rfl⟩ := taken_of_require hp
    have hafter := (List.pairwise_cons.mp ho.apart).1 word (by rw [show us = _ from hw]; simp)
    have hbefore := ho.bound opener (by simp)
    have hstart : (opener.span.merge word.span).start = opener.span.start := by
      rw [Span.merge_start]
      omega
    have : Names opener ⟨"BEGIN CASE", _⟩ := names_word hk (by decide) hstart
    rw [beginCase, run_bind_some hp]
    exact h.trans (Reports.reported (ho'.suffix h.rest))

theorem inputAt_reports (hk : opener.kind = .keyword .INPUT) :
    Reports [opener] (inputAt statement opener) := by
  refine .past fun _ => .past fun _ => .past fun column => .past fun _ => .past fun row => ?_
  refine .past fun _ => .past fun _ => .past fun into => .past fun length => .past fun s => ?_
  have : Names opener ⟨"INPUT@", s.since opener.span.start⟩ := by
    refine names_word hk (by decide) ?_
    unfold State.since
    split <;> rfl
  exact .settled clause?_reports fun _ => .pure _

theorem input_reports (hk : opener.kind = .keyword .INPUT) :
    Reports [opener] (input statement opener) := by
  have : Names opener ⟨"INPUT", opener.span⟩ := names_word hk (by decide) rfl
  refine .past fun _ => .choose (inputAt_reports hk) ?_
  exact .past fun into => .past fun length => .settled clause?_reports fun _ => .pure _

theorem openFile_reports (hk : opener.kind = .keyword .OPEN) :
    Reports [opener] (openFile statement opener) := by
  have : Names opener ⟨"OPEN", opener.span⟩ := names_word hk (by decide) rfl
  refine .past fun a => .past fun b => .past fun into => ?_
  refine .andThen onErrorClause_reports fun _ => .settled requiredClause_reports fun _ => ?_
  cases b with
  | some _ => exact .pure _
  | none => exact .pure _

section Singles
variable {owner : Owner} [Names opener owner]

/-- Parsers that go on with all three kinds of clauses. -/
theorem singles_reports {form : Option Statement → Option Statement → Option Clause → Form} :
    Reports [opener] (do
      let onError ← onErrorClause statement
      let locked ← lockedClause statement
      return form onError locked (← clause? statement owner)) :=
  .andThen onErrorClause_reports fun _ => .andThen lockedClause_reports fun _ =>
    .settled clause?_reports fun _ => .pure _

end Singles

theorem read_reports {k : Keyword} (mode : RecordMode) (hk : opener.kind = .keyword k)
    (hw : "READ" ++ mode.suffix ∈ k.constructs) :
    Reports [opener] (read statement mode opener) := by
  have : Names opener ⟨_, opener.span⟩ := names_word hk hw rfl
  exact .past fun into => .past fun _ => .past fun path => singles_reports

instance write_reports (mode : RecordMode) : Reports [] (write statement mode) := by
  refine .past fun value => .past fun _ => .past fun path => ?_
  exact .andThen onErrorClause_reports fun _ => .pure _

theorem delete_reports (hk : opener.kind = .keyword .DELETE) :
    Reports [opener] (delete statement opener) := by
  have : Names opener ⟨"DELETE", opener.span⟩ := names_word hk (by decide) rfl
  refine .past fun path => .andThen onErrorClause_reports fun _ => ?_
  exact .settled clause?_reports fun _ => .pure _

theorem receive_reports (feed : Feed) (hk : opener.kind = .keyword (feedWord feed)) :
    Reports [opener] (receive statement feed opener) := by
  have : Names opener ⟨(feedWord feed).spelling, opener.span⟩ :=
    names_word hk (by cases feed <;> decide) rfl
  exact .past fun into => .settled clause?_reports fun _ => .pure _

theorem lock_reports (hk : opener.kind = .keyword .LOCK) :
    Reports [opener] (lock statement opener) := by
  have : Names opener ⟨"LOCK", opener.span⟩ := names_word hk (by decide) rfl
  refine .past fun number => .andThen lockedClause_reports fun _ => ?_
  exact .settled clause?_reports fun _ => .pure _

instance clearFile_reports : Reports [] (clearFile statement) :=
  .past fun _ => .andThen onErrorClause_reports fun _ => .pure _

theorem matRead_reports {k : Keyword} (locking : Bool) (hk : opener.kind = .keyword k)
    (hw : (if locking then "MATREADU" else "MATREAD") ∈ k.constructs) :
    Reports [opener] (matRead statement locking opener) := by
  have : Names opener ⟨_, opener.span⟩ := names_word hk hw rfl
  exact .past fun array => .past fun _ => .past fun path => singles_reports

instance matWrite_reports (locking : Bool) : Reports [] (matWrite statement locking) := by
  refine .past fun array => .past fun _ => .past fun path => ?_
  exact .andThen onErrorClause_reports fun _ => .pure _

theorem locate_reports (hk : opener.kind = .keyword .LOCATE) :
    Reports [opener] (locate statement opener) := by
  have : Names opener ⟨"LOCATE", opener.span⟩ := names_word hk (by decide) rfl
  refine .past fun value => .past fun _ => .past fun container => .past fun setting => ?_
  exact .settled clause?_reports fun _ => .pure _

instance strayTerminator_reports (terminator word : String) (span : Span) :
    Reports [] (strayTerminator terminator word span) :=
  .andThen (.report rfl) fun _ => .fail

instance endUnit_reports : Reports [] (endUnit opener) := by
  refine .past fun s => .choose (.past fun _ => .pure _) ?_
  exact .andThen (.report rfl) fun _ => .past fun _ => .fail

/-- The keyword that a form consumes is owed to the rest of the form. -/
theorem led_reported {p : Token → Parser Form} {s : State} {us : List Token}
    (hr : s.rest = opener :: us)
    (h : (s.past opener us).Reported [opener] ((p opener).run (s.past opener us)).2) :
    s.Reported [] ((led p).run s).2 := by
  rw [led, run_bind_some (run_next hr)]
  exact .of_past hr h

instance led_reports {p : Token → Parser Form} [h : ∀ t, Reports [] (p t)] : Reports [] (led p) :=
  .past h

theorem keywordForm_reported {s : State} {us : List Token} {k : Keyword}
    (hr : s.rest = opener :: us) (hk : opener.kind = .keyword k) (ho : Ordered 0 s.rest) :
    s.Reported [] ((keywordForm statement k opener).run s).2 := by
  have ho' : Ordered 0 (s.past opener us).rest := (hr ▸ ho).tail
  cases k with
  | BEGIN => exact led_reported hr (beginCase_reported hr hk ho)
  | IF => exact led_reported hr ((ifThen_reports hk).reported ho')
  | FOR => exact led_reported hr ((forNext_reports hk).reported ho')
  | LOOP => exact led_reported hr ((loopRepeat_reports hk).reported ho')
  | INPUT => exact led_reported hr ((input_reports hk).reported ho')
  | OPEN => exact led_reported hr ((openFile_reports hk).reported ho')
  | READ => exact led_reported hr ((read_reports .plain hk (by decide)).reported ho')
  | READU => exact led_reported hr ((read_reports .locking hk (by decide)).reported ho')
  | READV => exact led_reported hr ((read_reports .attr hk (by decide)).reported ho')
  | READVU =>
    exact led_reported hr ((read_reports .lockingAttr hk (by decide)).reported ho')
  | DELETE => exact led_reported hr ((delete_reports hk).reported ho')
  | READNEXT => exact led_reported hr ((receive_reports .selectList hk).reported ho')
  | READT => exact led_reported hr ((receive_reports .tape hk).reported ho')
  | PROCREAD => exact led_reported hr ((receive_reports .procBuffer hk).reported ho')
  | LOCK => exact led_reported hr ((lock_reports hk).reported ho')
  | MATREAD => exact led_reported hr ((matRead_reports false hk (by decide)).reported ho')
  | MATREADU => exact led_reported hr ((matRead_reports true hk (by decide)).reported ho')
  | LOCATE => exact led_reported hr ((locate_reports hk).reported ho')
  | _ =>
    unfold keywordForm
    exact Reports.reported ho

theorem form_reported {s : State} {us : List Token} (hr : s.rest = opener :: us)
    (ho : Ordered 0 s.rest) : s.Reported [] ((form statement opener).run s).2 := by
  unfold form
  split
  next hk => exact keywordForm_reported hr hk ho
  next => exact Reports.reported ho

instance statementStep_reports : Reports [] (statementStep statement) where
  reported {s} ho := by
    rw [statementStep, run_bind_some (run_look s)]
    cases hr : s.rest with
    | nil => exact Reports.reported ho
    | cons t us =>
      have h := @form_reported statement _ _ _ _ hr ho
      dsimp only
      rcases hf : (form statement t).run s with ⟨_ | f, s'⟩ <;> rw [hf] at h
      · rwa [run_bind_none hf]
      · rwa [run_bind_some hf]

end Forms

instance statement_reports : Reports [] statement :=
  Reports.knot (fun _ h _ => have := h (); inferInstance) ()

end Grammar

theorem count_unclosed (n : Nat) (fs : List Fault) :
    ((fs.filter Fault.isUnclosed).map fun f => f.span.start).count n = unclosedAt n fs := by
  rw [List.count, List.countP_map, List.countP_filter, unclosedAt]
  congr 1
  ext f
  simp [Bool.and_comm]

theorem Ordered.startsAt_le_one {ts : List Token} (h : Ordered 0 ts) (n : Nat) :
    startsAt n ts ≤ 1 := by
  induction ts with
  | nil => exact Nat.zero_le _
  | cons t ts ih =>
    have hrest := ih h.tail
    rw [startsAt_cons]
    by_cases ht : t.span.start = n
    · have hnone : startsAt n ts = 0 := by
        apply List.countP_eq_zero.mpr
        intro u hu
        have hb := h.bound t (by simp)
        have ha := (List.pairwise_cons.mp h.apart).1 u hu
        simp only [beq_iff_eq]
        omega
      rw [hnone, Nat.zero_add]
      exact List.countP_le_length
    · simpa [startsAt, ht] using hrest

theorem readProgram_state (s : State) : s.readProgram.2 = ((programItems statement).run s).2 := by
  rcases hr : (programItems statement).run s with ⟨_ | is, s'⟩
  · simp only [State.readProgram, program, run_bind_none hr]
  · simp only [State.readProgram, program, run_bind_some hr, run_pure]

/-- The balance of a whole source. -/
theorem recordedFaults_reported (source : String) (keepComments : Bool) :
    (State.ofLexing (lex source) keepComments).Reported []
      (State.ofLexing (lex source) keepComments).readProgram.2 := by
  rw [readProgram_state]
  exact Reports.reported (lex_ordered source)

/-- The reports of unclosed constructs on a source start at different bytes, and each starts at
a keyword of the source that opens the construct. -/
theorem unclosed_once (source : String) (keepComments : Bool) :
    (((recordedFaults source keepComments).filter Fault.isUnclosed).map
      fun f => f.span.start).Nodup ∧
    ∀ f ∈ recordedFaults source keepComments, f.isUnclosed = true →
      ∃ t ∈ (lex source).tokens, t.Opens f := by
  have h := recordedFaults_reported source keepComments
  constructor
  · apply List.nodup_iff_count_le_one.mpr
    intro n
    have hbalance := h.balance n
    have hone := (lex_ordered source).startsAt_le_one n
    rw [count_unclosed]
    change unclosedAt n (recordedFaults source keepComments) + _ ≤
      0 + startsAt n (lex source).tokens + 0 at hbalance
    omega
  · intro f hf hu
    obtain hnone | hopens := h.opened f hf hu
    · cases hnone
    · exact hopens

/-- Two loops left open, one in the other: two reports, each at its own keyword. -/
theorem unclosed_once_nested :
    ((recordedFaults "FOR I = 1 TO 2\nLOOP\nX = I" true).filter Fault.isUnclosed).map
        Fault.span = [⟨15, 19⟩, ⟨0, 3⟩] ∧
    (((recordedFaults "FOR I = 1 TO 2\nLOOP\nX = I" true).filter Fault.isUnclosed).map
      fun f => f.span.start).Nodup ∧
    ∀ f ∈ recordedFaults "FOR I = 1 TO 2\nLOOP\nX = I" true, f.isUnclosed = true →
      ∃ t ∈ (lex "FOR I = 1 TO 2\nLOOP\nX = I").tokens, t.Opens f :=
  ⟨by decide +kernel, unclosed_once _ true⟩

end PickSyntax
