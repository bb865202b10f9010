import PickSyntax.Proofs.Expression.Climbing
import PickSyntax.Proofs.Parser.Onward

/-!
# Recursion goes down

Loops and knots go round again only when a token has been consumed since, and fail otherwise.
For the parsers of the grammar that proviso never matters. Every round of a loop that wants
another one has taken a token, and nested parsers are only run where fewer tokens are left:
two parsers that agree there may stand for each other (`Agree`). So the recursion of the
grammar is the plain one, and it ends: unrolled more often than there are tokens, it never
comes to what stands innermost.

Both properties pass through the combinators, and their instances follow the definitions.
-/
namespace PickSyntax.Parser

variable {α β γ ι : Type}

/-- Every value was read from at least one token. -/
class Moves (p : Parser α) : Prop where
  lt : ∀ {s v s'}, p.run s = (some v, s') → s'.rest.length < s.rest.length

/-- The parsers do the same where fewer than `n` tokens are left. -/
class Agree (n : Nat) (p q : Parser α) : Prop where
  run : ∀ s : State, s.rest.length < n → p.run s = q.run s

namespace Moves
variable {p q : Parser α} {f : α → Parser β}

instance fail : Moves (fail : Parser α) where
  lt h := by cases h

instance next : Moves next where
  lt := by
    intro s v s' h
    cases hr : s.rest with
    | nil => simp [Parser.next, hr] at h
    | cons t ts =>
      rw [run_next hr] at h
      cases h
      exact Nat.lt_succ_self _

instance bind [hp : Moves p] [hf : ∀ a, Onward (f a)] : Moves (p >>= f) where
  lt := by
    intro s v s' h
    rcases hr : p.run s with ⟨_ | a, s₁⟩
    · rw [run_bind_none hr] at h
      cases h
    · rw [run_bind_some hr] at h
      have hle := (hf a).rest_le s₁
      rw [h] at hle
      exact Nat.lt_of_le_of_lt hle (hp.lt hr)

/-- The second parser may be the one that takes a token. -/
theorem after [hp : Onward p] [hf : ∀ a, Moves (f a)] : Moves (p >>= f) where
  lt := by
    intro s v s' h
    have hle := hp.rest_le s
    rcases hr : p.run s with ⟨_ | a, s₁⟩ <;> rw [hr] at hle
    · rw [run_bind_none hr] at h
      cases h
    · rw [run_bind_some hr] at h
      exact Nat.lt_of_lt_of_le ((hf a).lt h) hle

instance ite {c : Prop} [Decidable c] [hp : Moves p] [hq : Moves q] :
    Moves (if c then p else q) := by
  split
  · exact hp
  · exact hq

instance expected (d : String) : Moves (expected d : Parser α) := after

end Moves

namespace Agree
variable {n : Nat} {p q : Parser α} {f g : α → Parser β}

instance (priority := low) refl : Agree n p p := ⟨fun _ _ => rfl⟩

theorem below : Agree n (below n p) p :=
  ⟨fun _ hs => if_pos hs⟩

instance bind [hp : Agree n p q] [ho : Onward p] [hf : ∀ a, Agree n (f a) (g a)] :
    Agree n (p >>= f) (q >>= g) where
  run s hs := by
    have hle := ho.rest_le s
    have heq := hp.run s hs
    rcases hr : p.run s with ⟨_ | a, s'⟩ <;> rw [hr] at hle heq
    · rw [run_bind_none hr, run_bind_none heq.symm]
    · rw [run_bind_some hr, run_bind_some heq.symm]
      exact (hf a).run s' (Nat.lt_of_le_of_lt hle hs)

/-- Two parsers that agree, and what follows each of them. -/
theorem andThen (hp : Agree n p q) [Onward p] (hf : ∀ a, Agree n (f a) (g a)) :
    Agree n (p >>= f) (q >>= g) :=
  bind

/-- The same parser comes first in both. -/
theorem past [Onward p] (hf : ∀ a, Agree n (f a) (g a)) : Agree n (p >>= f) (p >>= g) :=
  refl.andThen hf

/-- Behind a token there is one token less. -/
theorem behind [hp : Agree (n + 1) p q] [hm : Moves p] [hf : ∀ a, Agree n (f a) (g a)] :
    Agree (n + 1) (p >>= f) (q >>= g) where
  run s hs := by
    have heq := hp.run s hs
    rcases hr : p.run s with ⟨_ | a, s'⟩ <;> rw [hr] at heq
    · rw [run_bind_none hr, run_bind_none heq.symm]
    · have hlt := hm.lt hr
      rw [run_bind_some hr, run_bind_some heq.symm]
      exact (hf a).run s' (by omega)

/-- The same parser takes a token in both. -/
theorem further [Moves p] (hf : ∀ a, Agree n (f a) (g a)) : Agree (n + 1) (p >>= f) (p >>= g) :=
  behind

instance ite {c : Prop} [Decidable c] {p' q' : Parser α} [hp : Agree n p q] [hq : Agree n p' q'] :
    Agree n (if c then p else p') (if c then q else q') := by
  split
  · exact hp
  · exact hq

theorem choose {c : Prop} [Decidable c] {p' q' : Parser α} (hp : Agree n p q)
    (hq : Agree n p' q') : Agree n (if c then p else p') (if c then q else q') :=
  ite

instance catchFailure [hp : Agree n p q] : Agree n (catchFailure p) (catchFailure q) where
  run s hs := by rw [run_catchFailure, run_catchFailure, hp.run s hs]

instance attempt [hp : Agree n p q] : Agree n (attempt p) (attempt q) where
  run s hs := by simp only [Parser.attempt, hp.run s hs]

instance withAngled (b : Bool) [hp : Agree n p q] : Agree n (withAngled b p) (withAngled b q) where
  run s hs := by rw [run_withAngled, run_withAngled, hp.run { s with angled := b } hs]

instance inBlock (b : Block) [hp : Agree n p q] : Agree n (inBlock b p) (inBlock b q) where
  run s hs := by rw [run_inBlock, run_inBlock, hp.run { s with blocks := b :: s.blocks } hs]

instance loop {step step' : β → Parser (Step β γ)} [hstep : ∀ v, Agree n (step v) (step' v)]
    (v : β) : Agree n (loop step v) (loop step' v) where
  run s hs := by
    induction hk : s.rest.length using Nat.strongRecOn generalizing v s with
    | ind k ih =>
      rw [loop_run, loop_run, (hstep v).run s hs]
      split
      next => rfl
      next => rfl
      next v' s' _ =>
        split
        next hlt => exact ih _ (hk ▸ hlt) v' s' (Nat.lt_trans hlt hs) rfl
        next => rfl

instance afterKeyword? (k : Keyword) [Agree n p q] [Onward p] :
    Agree n (afterKeyword? k p) (afterKeyword? k q) := by
  unfold Parser.afterKeyword?
  infer_instance

instance afterComma? [Agree n p q] [Onward p] : Agree n (afterComma? p) (afterComma? q) := by
  unfold Parser.afterComma?
  infer_instance

instance commaList [Agree n p q] [Onward p] : Agree n (commaList p) (commaList q) := by
  unfold Parser.commaList Parser.commaStep
  infer_instance

end Agree

/-- The body only runs nested parsers behind a token: those that agree where fewer than `n`
tokens are left give parsers that agree where there is one more. -/
def GoesDown (body : (ι → Parser α) → ι → Parser α) : Prop :=
  ∀ n nested nested', (∀ j, Onward (nested j)) → (∀ j, Agree n (nested j) (nested' j)) →
    ∀ i, Agree (n + 1) (body nested i) (body nested' i)

/-- A knot with such a body is its body around itself. -/
theorem knot_eq {body : (ι → Parser α) → ι → Parser α} (ho : ∀ i, Onward (knot body i))
    (hbody : GoesDown body) (i : ι) : knot body i = body (knot body) i := by
  ext1 s
  rw [knot_run]
  exact (hbody _ _ _ (fun _ => inferInstance) (fun _ => Agree.below) i).run s (Nat.lt_succ_self _)

/-- Unrolled `k` times around any parsers, it is the knot wherever fewer than `k` tokens are left:
there the parsers innermost are not run. -/
theorem knot_unrolled {body : (ι → Parser α) → ι → Parser α} (ho : ∀ i, Onward (knot body i))
    (hbody : GoesDown body) (bottom : ι → Parser α) (k : Nat) :
    ∀ i, Agree k (knot body i) (Nat.repeat body k bottom i) := by
  induction k with
  | zero => exact fun i => ⟨fun s hs => absurd hs (Nat.not_lt_zero _)⟩
  | succ k ih =>
    intro i
    rw [knot_eq ho hbody i]
    exact hbody k _ _ ho ih i

/-- A round that goes on has taken a token. -/
def Advances (step : β → Parser (Step β γ)) : Prop :=
  ∀ v s, Returns (step v) s fun r s' => r.Says (fun _ => s'.rest.length < s.rest.length) fun _ => True

/-- Such a loop is its step around itself. -/
theorem loop_eq {step : β → Parser (Step β γ)} (h : Advances step) (v : β) :
    loop step v = (do
      match ← step v with
      | .more v' => loop step v'
      | .done c => pure c) := by
  ext1 s
  rw [loop_run, run_bind]
  rcases hr : (step v).run s with ⟨_ | v' | c, s'⟩
  · rfl
  · have hlt : s'.rest.length < s.rest.length := h v s _ s' hr
    simp only [hlt, if_true]
  · rfl

/-- The run of `p` from `s` yields a value. -/
def Succeeds (p : Parser α) (s : State) : Prop := ∃ v s', p.run s = (some v, s')

namespace Succeeds
variable {p q : Parser α} {f : α → Parser β} {s : State}

theorem pure (a : α) : Succeeds (pure a) s := ⟨a, s, rfl⟩

theorem bind (h : Succeeds p s) (hf : ∀ v s', p.run s = (some v, s') → Succeeds (f v) s') :
    Succeeds (p >>= f) s := by
  obtain ⟨v, s', hr⟩ := h
  obtain ⟨w, s'', hr'⟩ := hf v s' hr
  exact ⟨w, s'', by rw [run_bind_some hr, hr']⟩

theorem look {g : State → Parser β} (h : Succeeds (g s) s) : Succeeds (look >>= g) s := h

theorem ite {c : Prop} [Decidable c] (ht : c → Succeeds p s) (he : ¬c → Succeeds q s) :
    Succeeds (if c then p else q) s := by
  split
  next h => exact ht h
  next h => exact he h

theorem modifyState (g : State → State) : Succeeds (modifyState g) s := ⟨(), g s, rfl⟩

theorem enclosing {g : List Block → Parser β} (hb : s.blocks ≠ [])
    (h : ∀ outer, Succeeds (g outer) s) : Succeeds (enclosing >>= g) s := by
  obtain ⟨b, outer, hb⟩ := List.exists_cons_of_ne_nil hb
  unfold Succeeds
  rw [run_bind_some (run_enclosing hb)]
  exact h outer

theorem acceptAnywhere (k : TokenKind) : Succeeds (acceptAnywhere k) s :=
  .look (.ite (fun _ => .bind (.modifyState _) fun _ _ _ => .pure true) fun _ => .pure false)

theorem inBlock {b : Block} (h : Succeeds p { s with blocks := b :: s.blocks }) :
    Succeeds (inBlock b p) s := by
  obtain ⟨v, s', hr⟩ := h
  exact ⟨v, _, by rw [run_inBlock, hr]⟩

/-- A loop yields a value if each of its rounds does. -/
theorem loop {step : β → Parser (Step β γ)} {I : State → Prop} (ha : Advances step)
    (h : ∀ v s, I s → Succeeds (step v) s)
    (hi : ∀ v s s' v', I s → (step v).run s = (some (.more v'), s') → I s') {v : β} {s : State}
    (hs : I s) : Succeeds (loop step v) s := by
  induction hk : s.rest.length using Nat.strongRecOn generalizing v s with
  | ind k ih =>
    obtain ⟨r, s', hr⟩ := h v s hs
    cases r with
    | more v' =>
      have hlt : s'.rest.length < s.rest.length := ha v s _ s' hr
      obtain ⟨c, s'', hr'⟩ := ih _ (hk ▸ hlt) (v := v') (hi v s s' v' hs hr) rfl
      exact ⟨c, s'', by rw [loop_eq ha, run_bind_some hr, hr']⟩
    | done c => exact ⟨c, s', by rw [loop_eq ha, run_bind_some hr, run_pure]⟩

end Succeeds
end PickSyntax.Parser

namespace PickSyntax.Grammar

open PickSyntax.Parser

section Nested
variable {n : Nat} {nested nested' : AtLevel} [∀ level, Onward (nested level)]

instance named_moves : Moves (named nested) := by
  refine @Moves.bind _ _ _ _ inferInstance fun t => ?_
  refine @Onward.bind _ _ _ _ inferInstance fun s => ?_
  split
  · infer_instance
  · refine @Onward.bind _ _ _ _ inferInstance fun o => ?_
    split <;> infer_instance
  · infer_instance
  · infer_instance

instance cursor_moves : Moves (cursor nested) := by
  unfold cursor
  infer_instance

instance parenthesized_moves : Moves (parenthesized nested) := by
  unfold parenthesized
  infer_instance

variable [ha : ∀ level, Agree n (nested level) (nested' level)]

instance chainStep_agree (level : Nat) (left : Expr) :
    Agree n (chainStep nested level left) (chainStep nested' level left) := by
  refine .past fun s => ?_
  cases infixAt? s.angled s.rest with
  | none => exact .refl
  | some sign => exact .choose .refl (.past fun _ => .andThen (ha _) fun _ => .refl)

instance chain_agree (level : Nat) (left : Expr) :
    Agree n (chain nested level left) (chain nested' level left) :=
  Agree.loop left

instance arguments_agree : Agree n (arguments nested) (arguments nested') := by
  refine @Agree.withAngled _ _ _ _ _ (.past fun _ => .choose .refl ?_)
  exact .andThen .commaList fun _ => .refl

instance oneOrTwo_agree : Agree n (oneOrTwo nested) (oneOrTwo nested') :=
  .andThen (ha 0) fun _ => .andThen .afterComma? fun _ => .refl

instance enclosed_agree (closing : Symbol) :
    Agree n (enclosed nested closing) (enclosed nested' closing) :=
  @Agree.withAngled _ _ _ _ _ (.andThen oneOrTwo_agree fun _ => .refl)

instance subscripts_agree : Agree n (subscripts nested) (subscripts nested') := by
  refine .andThen (ha 0) fun _ => .past fun _ => .choose ?_ .refl
  exact .andThen (ha 0) fun _ => .andThen .afterComma? fun _ => .refl

instance angleSubscripts_agree : Agree n (angleSubscripts nested) (angleSubscripts nested') :=
  .past fun _ => .andThen (.withAngled true) fun _ => .refl

instance named_agree : Agree (n + 1) (named nested) (named nested') := by
  refine .further fun t => .past fun s => ?_
  cases attachment s.rest with
  | call => exact .past fun _ => .andThen arguments_agree fun _ => .refl
  | dynamic => exact .andThen .attempt fun _ => .refl
  | substring => exact .past fun _ => .andThen (enclosed_agree _) fun _ => .refl
  | none => exact .refl

instance cursor_agree : Agree (n + 1) (cursor nested) (cursor nested') :=
  .further fun _ => .past fun _ => .andThen (enclosed_agree _) fun _ => .refl

instance parenthesized_agree : Agree (n + 1) (parenthesized nested) (parenthesized nested') := by
  have hinner : Agree n (do
      let inner ← nested 0
      let _ ← requireSymbol .rightParen
      return inner) (do
      let inner ← nested' 0
      let _ ← requireSymbol .rightParen
      return inner) := .andThen (ha 0) fun _ => .refl
  exact .further fun _ => .andThen (.withAngled false) fun _ => .refl

instance primary_agree : Agree (n + 1) (primary nested) (primary nested') := by
  refine .past fun s => ?_
  repeat' split
  all_goals infer_instance

instance operand_agree : Agree (n + 1) (operand nested) (operand nested') := by
  refine .past fun s => ?_
  cases s.kind?.bind unaryOf? with
  | some op => exact .further fun _ => .andThen (ha _) fun _ => .refl
  | none => exact primary_agree

end Nested

section Climbing
variable {n : Nat} {nested nested' : AtLevel} [∀ level, Onward (nested level)]

instance invalidOperand_moves (t : Token) : Moves (invalidOperand t) := Moves.after

theorem primary_moves : Moves (primary nested) where
  lt := by
    intro s e s' h
    have taken {e' : Expr} {t : Token} {ts : List Token} (hr : s.rest = t :: ts)
        (h : (skip 1 >>= fun _ => (pure e' : Parser Expr)).run s = (some e, s')) :
        s'.rest.length < s.rest.length := by
      rw [run_bind_some (run_skip_one hr)] at h
      cases h
      simp [State.past, hr]
    rw [primary, run_bind, run_look] at h
    dsimp only at h
    split at h
    next => exact Moves.lt h
    next t ts hr =>
      repeat' split at h
      all_goals first
        | exact taken hr h
        | exact Moves.lt h

instance operand_moves : Moves (operand nested) where
  lt := by
    intro s e s' h
    rw [operand, run_bind, run_look] at h
    dsimp only at h
    split at h
    next => exact Moves.lt h
    next => exact primary_moves.lt h

instance expressionStep_agree [∀ level, Agree n (nested level) (nested' level)] (level : Nat) :
    Agree (n + 1) (expressionStep nested level) (expressionStep nested' level) :=
  @Agree.behind _ _ _ _ _ _ _ operand_agree operand_moves fun _ => chain_agree level _

end Climbing

theorem expressionStep_goesDown : GoesDown expressionStep :=
  fun _ _ _ _ _ _ => inferInstance

theorem expressionAt_eq (level : Nat) : expressionAt level = expressionStep expressionAt level :=
  knot_eq expressionAt_onward expressionStep_goesDown level

instance expressionAt_moves (level : Nat) : Moves (expressionAt level) := by
  rw [expressionAt_eq]
  unfold expressionStep
  infer_instance

instance expression_moves : Moves expression := expressionAt_moves 0

section Statements
variable {n : Nat} {p q : Parser Statement} [Onward p] [ha : Agree n p q]

instance item_agree : Agree n (item p) (item q) := by
  refine .past fun s => ?_
  cases label? s with
  | some l => exact .refl
  | none => exact .past fun _ => .andThen .catchFailure fun _ => .refl

instance bodyStep_agree (block : Block) (items : List Item) :
    Agree n (bodyStep p block items) (bodyStep q block items) := by
  refine .past fun cs => .past fun _ => .choose .refl (.past fun s => ?_)
  refine .choose .refl (.choose .refl (.past fun outer => .choose .refl ?_))
  exact .andThen item_agree fun _ => .refl

instance body_agree (block : Block) : Agree n (body p block) (body q block) :=
  @Agree.inBlock _ _ _ _ _ (.loop [])

instance clauseStatement_agree : Agree n (clauseStatement p) (clauseStatement q) :=
  .past fun _ => .choose (.past fun _ => ha) .refl

instance onErrorClause_agree : Agree n (onErrorClause p) (onErrorClause q) :=
  .past fun _ => .choose (.past fun _ => .andThen clauseStatement_agree fun _ => .refl) .refl

instance lockedClause_agree : Agree n (lockedClause p) (lockedClause q) :=
  .afterKeyword? .LOCKED

variable (owner : Owner)

instance elseBlock_agree : Agree n (elseBlock p owner) (elseBlock q owner) :=
  .andThen (body_agree _) fun _ => .refl

instance elseBranch_agree : Agree n (elseBranch p owner) (elseBranch q owner) :=
  .past fun _ => .choose (.andThen clauseStatement_agree fun _ => .refl)
    (.andThen (elseBlock_agree owner) fun _ => .refl)

instance thenBlock_agree : Agree n (thenBlock p owner) (thenBlock q owner) := by
  refine .andThen (body_agree _) fun _ => .choose (.past fun s => ?_) .refl
  refine .choose (.past fun _ => .past fun _ => .choose ?_ .refl) (.past fun _ => ?_)
  · exact .andThen (elseBranch_agree owner) fun _ => .refl
  · exact .andThen (elseBlock_agree owner) fun _ => .refl

instance thenInline_agree : Agree n (thenInline p owner) (thenInline q owner) :=
  .andThen clauseStatement_agree fun _ => .past fun _ =>
    .choose (.andThen (elseBranch_agree owner) fun _ => .refl) .refl

instance clause?_agree : Agree n (clause? p owner) (clause? q owner) := by
  refine .past fun _ => .choose (.past fun s => .choose ?_ ?_) (.past fun _ => .choose ?_ .refl)
  · exact .andThen (thenInline_agree owner) fun _ => .refl
  · exact .andThen (thenBlock_agree owner) fun _ => .refl
  · exact .andThen (elseBranch_agree owner) fun _ => .refl

instance requiredClause_agree : Agree n (requiredClause p owner) (requiredClause q owner) :=
  .andThen (clause?_agree owner) fun _ => .refl

instance ifThen_agree (opener : Token) : Agree n (ifThen p opener) (ifThen q opener) :=
  .past fun _ => .andThen (requiredClause_agree _) fun _ => .refl

instance forNext_agree (opener : Token) : Agree n (forNext p opener) (forNext q opener) := by
  refine .past fun counter => .past fun _ => .past fun start => .past fun _ => .past fun limit => ?_
  exact .past fun step => .past fun guard => .andThen (body_agree _) fun _ => .refl

instance loopRest_agree (sense : GuardSense) :
    Agree n (loopRest p owner sense) (loopRest q owner sense) :=
  .past fun _ => .past fun _ => .andThen (body_agree _) fun _ => .refl

instance loopRepeat_agree (opener : Token) :
    Agree n (loopRepeat p opener) (loopRepeat q opener) := by
  refine .andThen (body_agree _) fun _ => .choose (.past fun s => ?_) .refl
  cases guardSense? s with
  | some sense => exact .andThen (loopRest_agree _ sense) fun _ => .refl
  | none => exact .refl

instance caseArm_agree (leading : List Item) : Agree n (caseArm p leading) (caseArm q leading) :=
  .past fun _ => .past fun _ => .andThen (body_agree _) fun _ => .refl

instance caseArmStep_agree (r : CaseProgress) :
    Agree n (caseArmStep p owner r) (caseArmStep q owner r) :=
  .andThen (caseArm_agree _) fun _ => .refl

instance caseStep_agree (r : CaseProgress) :
    Agree n (caseStep p owner r) (caseStep q owner r) := by
  refine .past fun cs => .past fun _ => .choose .refl (.past fun s => .choose .refl ?_)
  exact .choose .refl (.choose (caseArmStep_agree owner _) .refl)

instance caseArms_agree : Agree n (caseArms p owner) (caseArms q owner) :=
  Agree.loop _

instance beginCase_agree (opener : Token) : Agree n (beginCase p opener) (beginCase q opener) :=
  .past fun _ => .andThen (caseArms_agree _) fun _ => .refl

variable (opener : Token)

instance inputAt_agree : Agree n (inputAt p opener) (inputAt q opener) := by
  refine .past fun _ => .past fun _ => .past fun column => .past fun _ => .past fun row => ?_
  refine .past fun _ => .past fun _ => .past fun into => .past fun length => .past fun s => ?_
  exact .andThen (clause?_agree _) fun _ => .refl

instance input_agree : Agree n (input p opener) (input q opener) := by
  refine .past fun s => .choose (inputAt_agree opener) ?_
  exact .past fun into => .past fun length => .andThen (clause?_agree _) fun _ => .refl

instance openFile_agree : Agree n (openFile p opener) (openFile q opener) := by
  refine .past fun a => .past fun b => .past fun into => ?_
  exact .andThen onErrorClause_agree fun _ => .andThen (requiredClause_agree _) fun _ => .refl

/-- Parsers that go on with all three kinds of clauses. -/
theorem singles_agree {form : Option Statement → Option Statement → Option Clause → Form} :
    Agree n
      (do
        let onError ← onErrorClause p
        let locked ← lockedClause p
        return form onError locked (← clause? p owner))
      (do
        let onError ← onErrorClause q
        let locked ← lockedClause q
        return form onError locked (← clause? q owner)) :=
  .andThen onErrorClause_agree fun _ => .andThen lockedClause_agree fun _ =>
    .andThen (clause?_agree owner) fun _ => .refl

instance read_agree (mode : RecordMode) : Agree n (read p mode opener) (read q mode opener) :=
  .past fun _ => .past fun _ => .past fun _ => singles_agree _

instance write_agree (mode : RecordMode) : Agree n (write p mode) (write q mode) :=
  .past fun _ => .past fun _ => .past fun _ => .andThen onErrorClause_agree fun _ => .refl

instance delete_agree : Agree n (delete p opener) (delete q opener) :=
  .past fun _ => .andThen onErrorClause_agree fun _ => .andThen (clause?_agree _) fun _ => .refl

instance receive_agree (feed : Feed) : Agree n (receive p feed opener) (receive q feed opener) :=
  .past fun _ => .andThen (clause?_agree _) fun _ => .refl

instance lock_agree : Agree n (lock p opener) (lock q opener) :=
  .past fun _ => .andThen lockedClause_agree fun _ => .andThen (clause?_agree _) fun _ => .refl

instance clearFile_agree : Agree n (clearFile p) (clearFile q) :=
  .past fun _ => .andThen onErrorClause_agree fun _ => .refl

instance matRead_agree (locking : Bool) :
    Agree n (matRead p locking opener) (matRead q locking opener) :=
  .past fun _ => .past fun _ => .past fun _ => singles_agree _

instance matWrite_agree (locking : Bool) : Agree n (matWrite p locking) (matWrite q locking) :=
  .past fun _ => .past fun _ => .past fun _ => .andThen onErrorClause_agree fun _ => .refl

instance locate_agree : Agree n (locate p opener) (locate q opener) := by
  refine .past fun value => .past fun _ => .past fun container => .past fun setting => ?_
  exact .andThen (clause?_agree _) fun _ => .refl

instance led_agree {f g : Token → Parser Form} [∀ t, Agree n (f t) (g t)] :
    Agree (n + 1) (led f) (led g) :=
  Agree.behind

instance keywordForm_agree (k : Keyword) :
    Agree (n + 1) (keywordForm p k opener) (keywordForm q k opener) := by
  cases k <;> (unfold keywordForm; infer_instance)

instance form_agree : Agree (n + 1) (form p opener) (form q opener) := by
  unfold form
  split <;> infer_instance

instance statementStep_agree : Agree (n + 1) (statementStep p) (statementStep q) := by
  refine .past fun s => ?_
  cases s.rest with
  | nil => exact .refl
  | cons t _ => exact .andThen (form_agree t) fun _ => .refl

end Statements

theorem statementStep_goesDown :
    GoesDown fun (nested : Unit → Parser Statement) _ => statementStep (nested ()) :=
  fun _ _ _ ho ha _ => @statementStep_agree _ _ _ (ho ()) (ha ())

theorem statement_eq : statement = statementStep statement :=
  knot_eq (fun _ => statement_onward) statementStep_goesDown ()

theorem statement_unrolled (bottom : Parser Statement) (k : Nat) :
    Agree k statement (Nat.repeat statementStep k bottom) := by
  have h := knot_unrolled (fun _ => statement_onward) statementStep_goesDown (fun _ => bottom) k ()
  -- The knot is over a family of one parser.
  have hfamily : Nat.repeat (fun (nested : Unit → Parser Statement) _ => statementStep (nested ())) k
      (fun _ => bottom) = fun _ => Nat.repeat statementStep k bottom := by
    clear h
    induction k with
    | zero => rfl
    | succ k ih => rw [Nat.repeat, ih, Nat.repeat]
  rwa [hfamily] at h

section Moving
variable {nested : Parser Statement} [Onward nested]

instance led_moves {p : Token → Parser Form} [∀ t, Onward (p t)] : Moves (led p) := by
  unfold led
  infer_instance

instance strayTerminator_moves (terminator word : String) (span : Span) :
    Moves (strayTerminator terminator word span) := Moves.after

instance endUnit_moves (opener : Token) : Moves (endUnit opener) where
  lt := by
    intro s v s' h
    rw [endUnit, run_bind, run_look] at h
    dsimp only at h
    split at h
    next hend =>
      obtain ⟨t, ts, hr, -⟩ := State.rest_of_isAt (Bool.and_eq_true_iff.mp hend).1
      rw [run_bind_some (run_skip_one hr)] at h
      cases h
      simp [State.past, hr]
    next => cases h

instance assignmentOrExpression_moves (opener : Token) : Moves (assignmentOrExpression opener) := by
  have : Moves (primary expressionAt) := primary_moves
  unfold assignmentOrExpression
  infer_instance

instance keywordForm_moves (k : Keyword) (opener : Token) : Moves (keywordForm nested k opener) := by
  cases k <;> (unfold keywordForm; infer_instance)

instance form_moves (opener : Token) : Moves (form nested opener) := by
  unfold form
  split <;> infer_instance

instance statementStep_moves : Moves (statementStep nested) := by
  refine @Moves.after _ _ _ _ inferInstance fun s => ?_
  split <;> infer_instance

end Moving

instance statement_moves : Moves statement := by
  rw [statement_eq]
  infer_instance

end PickSyntax.Grammar
