import PickSyntax.Proofs.Account.Program
import PickSyntax.Proofs.Parser.Recursion

/-!
# Parsing ends and leaves nothing behind

An item always consumes a token where there is one: a label by itself, a statement because
every form takes its first token, and a statement that failed because recovery does. The
other loops go on for the same kind of reason. So the bound that loops and knots carry is
never met, a program is read to the end of its tokens, and the parser that is left has no
block open and no comment to place.
-/
namespace PickSyntax.Grammar

open PickSyntax.Parser

variable {α : Type} {s : State}

theorem endStatement_some (left : Nat) (s : State) : ∃ s',
    (endStatement left).run s = (some (), s') := by
  change ∃ s', (if s.mayEndStatement then _ else _ : Parser Unit).run s = _
  split <;> exact ⟨_, rfl⟩

/-- Recovery consumes the first token of a statement that has consumed none itself. -/
theorem recover_lt {left : Nat} (hpos : 0 < left) (hs : s.rest.length ≤ left) :
    ((recover left).run s).2.rest.length < left := by
  obtain ⟨ts, s', hrun, ht, -, hne⟩ := recover_run left s
  rw [hrun]
  by_cases hl : s.rest.length = left
  · rw [← hl]
    exact ht.length_lt (hne hl (by omega))
  · have hle := ht.length_le
    dsimp only
    omega

theorem item_progress (hr : s.rest ≠ []) : ∃ o s',
    (item statement).run s = (some o, s') ∧ s'.rest.length < s.rest.length := by
  have hpos : 0 < s.rest.length := List.length_pos_iff.mpr hr
  cases hl : label? s with
  | some l =>
    obtain ⟨t, ts, hr⟩ := List.exists_cons_of_ne_nil hr
    refine ⟨some (.label l), s.past t ts, ?_, by simp [State.past, hr]⟩
    simp only [item, run_bind, run_look, hl, run_skip_one hr, run_pure]
  | none =>
    rw [run_item hl]
    have hle := Onward.rest_le (p := statement) { s with begun := false }
    rcases hst : statement.run { s with begun := false } with ⟨_ | v, s₁⟩
    · rw [hst] at hle
      exact ⟨_, _, run_bind_some (recover_some ..) _, recover_lt hpos hle⟩
    · have hlt := statement_moves.lt hst
      obtain ⟨s₂, hend⟩ := endStatement_some s.rest.length s₁
      have hle₂ := Onward.rest_le (p := endStatement s.rest.length) s₁
      rw [hend] at hle₂
      exact ⟨_, s₂, run_bind_some hend _, Nat.lt_of_le_of_lt hle₂ hlt⟩

theorem accept_lt {k : TokenKind} {s' : State} (h : (accept k).run s = (some true, s')) :
    s'.rest.length < s.rest.length := by
  cases hat : s.isAtOnLine k with
  | true =>
    obtain ⟨t, ts, hr, -, -⟩ := State.rest_of_isAtOnLine hat
    rw [run_accept_true hr hat] at h
    cases h
    simp [State.past, hr]
  | false =>
    rw [run_accept_false hat] at h
    cases h

theorem acceptAnywhere_lt {k : TokenKind} {s' : State}
    (h : (acceptAnywhere k).run s = (some true, s')) : s'.rest.length < s.rest.length := by
  obtain ⟨t, ts, hr, -, rfl⟩ := acceptAnywhere_returns k s true s' h
  simp [State.past, hr]

theorem commaStep_advances (p : Parser α) [hp : Onward p] : Advances (commaStep p) := by
  intro vs s
  refine Returns.bind fun b s₁ hb => Returns.ite (fun hcomma => ?_) fun _ => .pure trivial
  subst hcomma
  refine Returns.bind fun v s₂ hv => .pure ?_
  have hle := hp.rest_le s₁
  rw [hv] at hle
  exact Nat.lt_of_le_of_lt hle (accept_lt hb)

theorem infixAt?_drop_lt {angled : Bool} {ts : List Token} {op : BinaryOp} {width : Nat}
    (h : infixAt? angled ts = some (op, width)) : (ts.drop width).length < ts.length := by
  obtain ⟨us, vs, rfl, rfl, hspell⟩ := spelling_of_binaryAt? (binaryAt?_of_infixAt? h)
  have hpos : 0 < us.length := by cases hspell <;> simp
  rw [List.drop_left, List.length_append]
  omega

theorem chainStep_advances (nested : AtLevel) [hn : ∀ level, Onward (nested level)] (level : Nat) :
    Advances (chainStep nested level) := by
  intro left s
  refine Returns.look ?_
  split
  next => exact .pure trivial
  next op width hop =>
    refine Returns.ite (fun _ => .pure trivial) fun _ => ?_
    refine Returns.bind fun _ s₁ hskip => Returns.bind fun e s₂ he => .pure ?_
    cases hskip
    have hle := (hn op.rightLevel).rest_le (s.drop width)
    rw [he, State.drop_rest] at hle
    exact Nat.lt_of_le_of_lt hle (infixAt?_drop_lt hop)

theorem printStep_advances : Advances printStep := by
  intro items s
  refine Returns.look (Returns.ite (fun _ => ?_) fun _ => .pure trivial)
  refine Returns.bind fun e s₁ he => Returns.bind fun o s₂ ho => ?_
  have hlt := expression_moves.lt he
  have hle := entrySeparator_onward.rest_le s₁
  rw [ho] at hle
  cases o with
  | none => exact .pure trivial
  | some separator => exact .pure (Nat.lt_of_le_of_lt hle hlt)

theorem item_lt {o : Option Item} {s' : State} (hr : s.rest ≠ [])
    (h : (item statement).run s = (some o, s')) : s'.rest.length < s.rest.length := by
  obtain ⟨o', s'', hrun, hlt⟩ := item_progress hr
  rw [h] at hrun
  cases hrun
  exact hlt

/-- Comments and a separator come first in every round of a list. -/
theorem separated_advances {β γ : Type} {f : List Item → β} {g : List Item → Parser (Step β γ)}
    (hg : ∀ cs s₁, s₁.rest = s.rest → Returns (g cs) s₁ fun r s' =>
      r.Says (fun _ => s'.rest.length < s₁.rest.length) fun _ => True) :
    Returns (commentItems >>= fun cs => acceptAnywhere (.symbol .semicolon) >>= fun b =>
      if b then pure (.more (f cs)) else g cs) s fun r s' =>
        r.Says (fun _ => s'.rest.length < s.rest.length) fun _ => True := by
  refine Returns.bind fun cs s₁ hcs => Returns.bind fun b s₂ hb => ?_
  have hrest : s₁.rest = s.rest := by
    cases hcs
    rfl
  rw [← hrest]
  cases b with
  | true => exact .pure (acceptAnywhere_lt hb)
  | false =>
    obtain rfl := acceptAnywhere_returns _ _ false s₂ hb
    exact hg cs s₂ hrest

theorem bodyStep_advances (block : Block) : Advances (bodyStep statement block) := by
  refine fun items s => separated_advances fun cs s₁ _ => Returns.look ?_
  refine Returns.ite (fun _ => .pure trivial) fun hne => ?_
  refine Returns.ite (fun _ => .pure trivial) fun _ => Returns.enclosing fun outer => ?_
  refine Returns.ite (fun _ => .pure trivial) fun _ => ?_
  exact Returns.bind fun o s₂ ho => .pure (item_lt (by simpa using hne) ho)

theorem programStep_advances : Advances (programStep statement) := by
  refine fun items s => separated_advances fun cs s₁ _ => Returns.look ?_
  refine Returns.ite (fun _ => .pure trivial) fun hne => ?_
  exact Returns.bind fun o s₂ ho => .pure (item_lt (by simpa using hne) ho)

theorem item_succeeds (hr : s.rest ≠ []) : Succeeds (item statement) s := by
  obtain ⟨o, s', hrun, -⟩ := item_progress hr
  exact ⟨o, s', hrun⟩

theorem bodyStep_succeeds (block : Block) (items : List Item) (hb : s.blocks ≠ []) :
    Succeeds (bodyStep statement block items) s := by
  have hcomments : Succeeds commentItems s := .bind ⟨_, _, rfl⟩ fun _ _ _ => .pure _
  refine hcomments.bind fun cs s₁ h₁ => .bind (.acceptAnywhere _) fun b s₂ h₂ => ?_
  have hb₂ : s₂.blocks ≠ [] := by
    rwa [(Onward.run_reaches h₂).blocks, (Onward.run_reaches h₁).blocks]
  refine .ite (fun _ => .pure _) fun _ => .look (.ite (fun _ => .pure _) fun hne => ?_)
  refine .ite (fun _ => .pure _) fun _ => .enclosing hb₂ fun outer => ?_
  exact .ite (fun _ => .pure _) fun _ =>
    (item_succeeds (by simpa using hne)).bind fun _ _ _ => .pure _

/-- A body is always read. No round of it is refused, and none asks for the blocks around the
innermost one in vain, since the block of the body is open all along. -/
theorem body_succeeds (block : Block) (s : State) : Succeeds (body statement block) s := by
  refine .inBlock (.loop (I := fun s => s.blocks ≠ []) (bodyStep_advances block)
    (fun items s hb => bodyStep_succeeds block items hb) ?_ (List.cons_ne_nil _ _))
  intro items s s' items' hb hr
  rwa [(Onward.run_reaches hr).blocks]

instance caseArm_moves (leading : List Item) : Moves (caseArm statement leading) := by
  unfold caseArm
  infer_instance

instance caseArmStep_moves (owner : Owner) (r : CaseProgress) :
    Moves (caseArmStep statement owner r) := by
  refine @Moves.bind _ _ _ _ inferInstance fun r => ?_
  dsimp only
  split <;> infer_instance

theorem abandonCases_done {Q : CaseProgress → State → Prop} (owner : Owner) (arms : List CaseArm)
    (s : State) : Returns (abandonCases owner arms) s fun r s' => r.Says (Q · s') fun _ => True :=
  Returns.bind fun _ _ _ => .pure trivial

theorem caseStep_advances (owner : Owner) : Advances (caseStep statement owner) := by
  refine fun r s => separated_advances fun cs s₁ _ => Returns.look ?_
  refine Returns.ite (fun _ => abandonCases_done _ _ _) fun hne => ?_
  refine Returns.ite (fun _ => Returns.bind fun _ _ _ => .pure trivial) fun _ => ?_
  refine Returns.ite (fun _ v s' h => ?_) fun _ => ?_
  · have hlt := (caseArmStep_moves owner _).lt h
    cases v with
    | more => exact hlt
    | done => trivial
  · refine Returns.ite (fun _ => abandonCases_done _ _ _) fun _ => ?_
    have hpos : 0 < s₁.rest.length := List.length_pos_iff.mpr (by simpa using hne)
    refine Returns.bind fun _ s₂ h₂ => Returns.bind fun _ s₃ h₃ => Returns.bind fun _ s₄ h₄ => .pure ?_
    cases h₂
    cases h₃
    rw [recover_some] at h₄
    cases h₄
    exact recover_lt hpos (Nat.le_refl _)

/-- The state with the comments before the next token placed. -/
def placed (s : State) : State := { s with comments := s.comments.dropWhile s.isPending }

/-- The items with the comments before the next token behind them. -/
def withComments (items : List Item) (s : State) : List Item :=
  items ++ (s.comments.takeWhile s.isPending).map Item.comment

section Rounds
variable (st : Parser Statement) (items : List Item) {t : Token} {ts : List Token}

theorem programStep_run : (programStep st items).run s =
    (do if ← acceptAnywhere (.symbol .semicolon) then pure (.more (withComments items s))
        else do
          let s' ← look
          if s'.rest.isEmpty then pure (.done (withComments items s))
          else do
            let o ← item st
            pure (.more (withComments items s ++ o.toList)) :
      Parser (Step (List Item) (List Item))).run (placed s) :=
  rfl

/-- At the end of the tokens. -/
theorem programStep_nil (hr : s.rest = []) : (programStep st items).run s =
    (some (.done (withComments items s)), placed s) := by
  have hr : (placed s).rest = [] := hr
  rw [programStep_run]
  simp [acceptAnywhere, run_bind, State.isAt, State.kind?, hr]

theorem programStep_separator (hr : s.rest = t :: ts) (hk : t.kind = .symbol .semicolon) :
    (programStep st items).run s =
      (some (.more (withComments items s)), (placed s).past t ts) := by
  have hr : (placed s).rest = t :: ts := hr
  rw [programStep_run]
  simp only [acceptAnywhere, run_bind, run_look, State.isAt, State.kind?, hr, List.head?_cons,
    Option.map_some, hk, beq_self_eq_true, if_true, run_skip_one hr, run_pure]

theorem programStep_item (hr : s.rest = t :: ts) (hk : t.kind ≠ .symbol .semicolon) :
    (programStep st items).run s =
      (item st >>= fun o => pure (.more (withComments items s ++ o.toList))).run (placed s) := by
  have hr : (placed s).rest = t :: ts := hr
  have hat : (placed s).isAt (.symbol .semicolon) = false := by
    simp [State.isAt, State.kind?, hr, hk]
  have hrun : (acceptAnywhere (.symbol .semicolon)).run (placed s) = (some false, placed s) := by
    simp [acceptAnywhere, run_bind, hat]
  rw [programStep_run, run_bind_some hrun]
  simp [run_bind, hr, -bind_pure_comp]

end Rounds

theorem withComments_nil {items : List Item} (hr : s.rest = []) :
    withComments items s = items ++ s.comments.map Item.comment := by
  have hall : ∀ c ∈ s.comments, s.isPending c = true := fun c _ => by simp [State.isPending, hr]
  have htake := @List.takeWhile_append_of_pos _ _ s.comments [] hall
  simp only [List.append_nil, List.takeWhile_nil] at htake
  rw [withComments, htake]

theorem placed_comments (hr : s.rest = []) : (placed s).comments = [] := by
  have hall : ∀ c ∈ s.comments, s.isPending c = true := fun c _ => by simp [State.isPending, hr]
  have hdrop := @List.dropWhile_append_of_pos _ _ s.comments [] hall
  simpa [placed] using hdrop

theorem placed_of_comments (hc : s.comments = []) : placed s = s := by
  cases s
  cases hc
  rfl

/-- Whatever the tokens are, the items of a program are found, and nothing is left. -/
theorem programLoop_ends (items : List Item) (s : State) : ∃ is s',
    (loop (programStep statement) items).run s = (some is, s') ∧ s'.rest = [] ∧ s'.comments = [] := by
  induction hn : s.rest.length using Nat.strongRecOn generalizing s items with
  | ind n ih =>
    subst hn
    cases hr : s.rest with
    | nil =>
      rw [loop_run, programStep_nil statement items hr]
      exact ⟨_, _, rfl, hr, placed_comments hr⟩
    | cons t ts =>
      have hmore : ∃ is s', (programStep statement items).run s = (some (.more is), s') := by
        by_cases hk : t.kind = .symbol .semicolon
        · exact ⟨_, _, programStep_separator statement items hr hk⟩
        · obtain ⟨o, s', ho, -⟩ := item_progress (s := placed s) (by simp [placed, hr])
          rw [programStep_item statement items hr hk, run_bind_some ho]
          exact ⟨_, _, rfl⟩
      obtain ⟨is, s', hmore⟩ := hmore
      have hlt : s'.rest.length < s.rest.length := programStep_advances items s _ s' hmore
      rw [loop_run, hmore]
      simp only [hlt, if_true]
      exact ih _ hlt is s' rfl

/-- The parsers that the grammar names, each in terms of the whole grammar. -/
inductive Routine : {α : Type} → Parser α → Prop
  | expressionAt (level : Nat) : Routine (expressionAt level)
  | operand : Routine (operand expressionAt)
  | primary : Routine (primary expressionAt)
  | named : Routine (named expressionAt)
  | cursor : Routine (cursor expressionAt)
  | parenthesized : Routine (parenthesized expressionAt)
  | arguments : Routine (arguments expressionAt)
  | oneOrTwo : Routine (oneOrTwo expressionAt)
  | enclosed (closing : Symbol) : Routine (enclosed expressionAt closing)
  | subscripts : Routine (subscripts expressionAt)
  | angleSubscripts : Routine (angleSubscripts expressionAt)
  | chain (level : Nat) (left : Expr) : Routine (chain expressionAt level left)
  | expression : Routine expression
  | expression? : Routine expression?
  | parameters : Routine parameters
  | subroutine : Routine subroutine
  | arrayBounds : Routine arrayBounds
  | dim : Routine dim
  | commonBlock : Routine commonBlock
  | common : Routine common
  | equateSense : Routine equateSense
  | equate : Routine equate
  | mat : Routine mat
  | target : Routine target
  | goKind : Routine goKind
  | jump (kind : JumpKind) : Routine (jump kind)
  | go : Routine go
  | jumpOnKind : Routine jumpOnKind
  | jumpOn : Routine jumpOn
  | returnTo : Routine returnTo
  | item : Routine (item statement)
  | body (block : Block) : Routine (body statement block)
  | clauseStatement : Routine (clauseStatement statement)
  | onErrorClause : Routine (onErrorClause statement)
  | lockedClause : Routine (lockedClause statement)
  | elseBlock (owner : Owner) : Routine (elseBlock statement owner)
  | elseBranch (owner : Owner) : Routine (elseBranch statement owner)
  | thenBlock (owner : Owner) : Routine (thenBlock statement owner)
  | closeInline (clause : Clause) : Routine (closeInline clause)
  | thenInline (owner : Owner) : Routine (thenInline statement owner)
  | clause? (owner : Owner) : Routine (clause? statement owner)
  | requiredClause (owner : Owner) : Routine (requiredClause statement owner)
  | ifThen (opener : Token) : Routine (ifThen statement opener)
  | loopGuard (sense : GuardSense) : Routine (loopGuard sense)
  | forGuard : Routine forGuard
  | nextName : Routine nextName
  | forNext (opener : Token) : Routine (forNext statement opener)
  | loopRest (owner : Owner) (sense : GuardSense) : Routine (loopRest statement owner sense)
  | loopRepeat (opener : Token) : Routine (loopRepeat statement opener)
  | caseArm (leading : List Item) : Routine (caseArm statement leading)
  | caseArms (owner : Owner) : Routine (caseArms statement owner)
  | beginCase (opener : Token) : Routine (beginCase statement opener)
  | printList : Routine printList
  | print : Routine print
  | crt : Routine crt
  | inputLength : Routine inputLength
  | inputAt (opener : Token) : Routine (inputAt statement opener)
  | input (opener : Token) : Routine (input statement opener)
  | inputTrap : Routine inputTrap
  | data : Routine data
  | switch (device : Device) : Routine (switch device)
  | recordPath (ofAttr : Bool) : Routine (recordPath ofAttr)
  | destination : Routine destination
  | openFile (opener : Token) : Routine (openFile statement opener)
  | read (mode : RecordMode) (opener : Token) : Routine (read statement mode opener)
  | write (mode : RecordMode) : Routine (write statement mode)
  | delete (opener : Token) : Routine (delete statement opener)
  | receive (feed : Feed) (opener : Token) : Routine (receive statement feed opener)
  | writeTape : Routine writeTape
  | select : Routine select
  | lock (opener : Token) : Routine (lock statement opener)
  | clearFile : Routine (clearFile statement)
  | matRead (locking : Bool) (opener : Token) : Routine (matRead statement locking opener)
  | matWrite (locking : Bool) : Routine (matWrite statement locking)
  | locate (opener : Token) : Routine (locate statement opener)
  | execute : Routine execute
  | calledName : Routine calledName
  | callArguments : Routine callArguments
  | call : Routine call
  | operandOf (verb : OperandVerb) : Routine (operandOf verb)
  | optionalOf (verb : OptionalVerb) : Routine (optionalOf verb)
  | endUnit (opener : Token) : Routine (endUnit opener)
  | assignmentOrExpression (opener : Token) : Routine (assignmentOrExpression opener)
  | keywordForm (k : Keyword) (opener : Token) : Routine (keywordForm statement k opener)
  | form (opener : Token) : Routine (form statement opener)
  | statement : Routine statement
  | programItems : Routine (programItems statement)
  | program : Routine program

instance programItems_onward : Onward (programItems statement) := by
  unfold programItems
  infer_instance

instance program_onward : Onward program := by
  unfold program
  infer_instance

theorem Routine.onward {p : Parser α} (h : Routine p) : Onward p := by
  cases h <;> infer_instance

/-- The recursion of the grammar, without the bound that makes it end. A parser that is nested
in another one is only run behind a token, so that a recursion as deep as there are tokens is
deep enough, whatever is nested innermost; and a round of a loop that wants another one has taken
a token. -/
structure PlainRecursion : Prop where
  statement : statement = statementStep statement
  expression (level : Nat) : expressionAt level = expressionStep expressionAt level
  statement_goesDown (n : Nat) (p q : Parser Statement) : Onward p → Agree n p q →
    Agree (n + 1) (statementStep p) (statementStep q)
  expression_goesDown (n : Nat) (p q : AtLevel) : (∀ level, Onward (p level)) →
    (∀ level, Agree n (p level) (q level)) →
      ∀ level, Agree (n + 1) (expressionStep p level) (expressionStep q level)
  statement_unrolled (bottom : Parser Statement) (k : Nat) :
    Agree k Grammar.statement (Nat.repeat statementStep k bottom)
  expression_unrolled (bottom : AtLevel) (k level : Nat) :
    Agree k (expressionAt level) (Nat.repeat expressionStep k bottom level)
  commas {α : Type} {p : Parser α} : Routine p → Advances (commaStep p)
  chain (level : Nat) : Advances (chainStep expressionAt level)
  print : Advances printStep
  body (block : Block) : Advances (bodyStep Grammar.statement block)
  cases (owner : Owner) : Advances (caseStep Grammar.statement owner)
  program : Advances (programStep Grammar.statement)

theorem plainRecursion : PlainRecursion where
  statement := statement_eq
  expression := expressionAt_eq
  statement_goesDown _ _ _ _ _ := inferInstance
  expression_goesDown := expressionStep_goesDown
  statement_unrolled := statement_unrolled
  expression_unrolled := knot_unrolled expressionAt_onward expressionStep_goesDown
  commas h := @commaStep_advances _ _ h.onward
  chain := chainStep_advances expressionAt
  print := printStep_advances
  body := bodyStep_advances
  cases := caseStep_advances
  program := programStep_advances

theorem rightLevel_lt {op : BinaryOp} (h : op.groupsRight = true) : op.rightLevel + 1 = op.level := by
  have := level_pos op
  rw [BinaryOp.rightLevel, if_pos h]
  omega

end PickSyntax.Grammar
