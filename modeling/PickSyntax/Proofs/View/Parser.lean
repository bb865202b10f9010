import PickSyntax.Grammar.Body
import PickSyntax.Proofs.Parser.Onward
import PickSyntax.Proofs.View.Tree

/-!
# Parsers seen through a view

A parser commutes with a view when it does the same before and after looking: run on the state
as it looks (`through`), it has the outcome that its run on the state itself has, as that
outcome looks (`viewed`). A parser that takes data commutes together with the data.

Nothing that a parser asks about the next tokens depends on what a view leaves out. The rules
below move a view through the combinators, so that a parser commutes when its parts do.
-/
namespace PickSyntax

/-- Data that can be looked at through a view. -/
class Visible (α : Type) where
  seen : View → α → α

export Visible (seen)

section Instances
variable {α β : Type}

/-- Data that looks the same through every view. -/
abbrev Visible.constant : Visible α := ⟨fun _ a => a⟩

instance : Visible Unit := .constant
instance : Visible Bool := .constant
instance : Visible Separator := .constant
instance : Visible EquateSense := .constant
instance : Visible JumpKind := .constant
instance : Visible ClauseLayout := .constant
instance : Visible Grammar.BodyEnd := .constant
instance : Visible Block := .constant
instance : Visible String := ⟨View.text⟩
instance : Visible Token := ⟨Token.seen⟩
instance : Visible Expr := ⟨Expr.seen⟩
instance : Visible Target := ⟨Target.seen⟩
instance : Visible ArrayBounds := ⟨ArrayBounds.seen⟩
instance : Visible RecordPath := ⟨RecordPath.seen⟩
instance : Visible LoopGuard := ⟨LoopGuard.seen⟩
instance : Visible PrintEntry := ⟨PrintEntry.seen⟩
instance : Visible Statement := ⟨Statement.seen⟩
instance : Visible Clause := ⟨Clause.seen⟩
instance : Visible CaseArm := ⟨CaseArm.seen⟩
instance : Visible Form := ⟨Form.seen⟩
instance : Visible Program := ⟨Program.seen⟩
instance [Visible α] : Visible (Option α) := ⟨fun v => Option.map (seen v)⟩
instance [Visible α] : Visible (List α) := ⟨fun v => List.map (seen v)⟩
instance [Visible α] [Visible β] : Visible (α × β) := ⟨fun v => Prod.map (seen v) (seen v)⟩

/-- Comments that are not seen leave no trace in a list. -/
instance (priority := high) : Visible (List Comment) := ⟨Comment.seenAll⟩
instance (priority := high) : Visible (List Item) := ⟨Item.seenAll⟩
instance (priority := high) : Visible (Option Item) := ⟨fun v i => i.bind (Item.seen? v)⟩

attribute [simp] Visible.seen

end Instances

namespace Parser

variable {α β γ δ ι : Type} {v : View}

def State.seen (v : View) (s : State) : State where
  rest := s.rest.map (Token.seen v)
  previous := s.previous.map (Token.seen v)
  begun := s.begun
  comments := Comment.seenAll v s.comments
  blocks := s.blocks
  angled := s.angled
  faults := s.faults.map (Fault.seen v)

instance : Visible State := ⟨State.seen⟩

/-- The parser on the state as it looks. -/
def through (v : View) (p : Parser α) : Parser α := ⟨fun s => p.run (s.seen v)⟩

theorem run_through (p : Parser α) (s : State) : (p.through v).run s = p.run (s.seen v) := rfl

section Rules
variable [Visible α] [Visible β] [Visible γ]

def Step.seen (v : View) : Step β γ → Step β γ
  | .more b => .more (PickSyntax.seen v b)
  | .done c => .done (PickSyntax.seen v c)

instance : Visible (Step β γ) := ⟨Step.seen⟩

attribute [simp] Step.seen

/-- The outcome of the parser as it looks. -/
def viewed (v : View) (p : Parser α) : Parser α :=
  ⟨fun s => ((p.run s).1.map (PickSyntax.seen v), (p.run s).2.seen v)⟩

theorem run_viewed (p : Parser α) (s : State) :
    (p.viewed v).run s = ((p.run s).1.map (seen v), (p.run s).2.seen v) := rfl

/-- The parser does the same before and after looking. -/
class Commutes (v : View) (p : Parser α) : Prop where
  through_eq : p.through v = p.viewed v

@[simp] theorem through_eq_viewed (p : Parser α) [h : Commutes v p] : p.through v = p.viewed v :=
  h.through_eq

/-- The outcome of a run on the state as it looks. -/
theorem run_seen {p q : Parser α} (h : q.through v = p.viewed v) (s : State) :
    q.run (s.seen v) = ((p.run s).1.map (seen v), (p.run s).2.seen v) :=
  congrArg (Parser.run · s) h

/-- Runs `p`, and then `f` on its value if there is one; if not, looks at the state. -/
def andLook (v : View) (p : Parser α) (f : α → Parser β) : Parser β where
  run s :=
    match p.run s with
    | (some a, s') => (f a).run s'
    | (none, s') => (none, s'.seen v)

omit [Visible α] [Visible β] in
theorem run_andLook (p : Parser α) (f : α → Parser β) (s : State) :
    (p.andLook v f).run s = match p.run s with
      | (some a, s') => (f a).run s'
      | (none, s') => (none, s'.seen v) := rfl

omit [Visible α] in
@[simp] theorem viewed_bind (p : Parser α) (f : α → Parser β) :
    (p >>= f).viewed v = p.andLook v fun a => (f a).viewed v := by
  ext1 s
  rw [run_viewed, run_bind, run_andLook]
  rcases p.run s with ⟨_ | a, s'⟩ <;> rfl

omit [Visible β] in
/-- What follows a commuting parser reads the state as it looks, with the value as it looks. -/
@[simp] theorem viewed_then (p : Parser α) (f : α → Parser β) :
    p.viewed v >>= f = p.andLook v fun a => (f (seen v a)).through v := by
  ext1 s
  rw [run_bind, run_viewed, run_andLook]
  rcases p.run s with ⟨_ | a, s'⟩ <;> rfl

omit [Visible α] in
@[simp] theorem viewed_map (f : α → β) (p : Parser α) :
    (f <$> p).viewed v = p.andLook v fun a => (pure (f a) : Parser β).viewed v :=
  viewed_bind p fun a => pure (f a)

omit [Visible β] in
@[simp] theorem map_viewed (f : α → β) (p : Parser α) :
    f <$> p.viewed v = p.andLook v fun a => (pure (f (seen v a)) : Parser β).through v :=
  viewed_then p fun a => pure (f a)

@[simp] theorem viewed_pure (a : α) :
    (pure a : Parser α).viewed v = (pure (seen v a) : Parser α).through v := rfl

@[simp] theorem viewed_ite (c : Prop) [Decidable c] (p q : Parser α) :
    (if c then p else q).viewed v = if c then p.viewed v else q.viewed v :=
  apply_ite ..

end Rules

@[simp] theorem through_bind (p : Parser α) (f : α → Parser β) :
    (p >>= f).through v = p.through v >>= f := rfl

@[simp] theorem through_map (f : α → β) (p : Parser α) :
    (f <$> p).through v = f <$> p.through v :=
  ext fun _ => rfl

@[simp] theorem through_ite (c : Prop) [Decidable c] (p q : Parser α) :
    (if c then p else q).through v = if c then p.through v else q.through v :=
  apply_ite ..

instance : Commutes v look := ⟨rfl⟩

instance [Visible δ] : Commutes v (fail : Parser δ) := ⟨rfl⟩

instance : Commutes v enclosing where
  through_eq := by
    ext1 s
    rw [run_through, run_viewed]
    cases hb : s.blocks with
    | nil => simp [enclosing, State.seen, hb]
    | cons b outer => simp [enclosing, State.seen, hb]

theorem modifyState_seen {f g : State → State} (h : ∀ s : State, g (s.seen v) = (f s).seen v) :
    (modifyState g).through v = (modifyState f).viewed v := by
  ext1 s
  rw [run_through, run_viewed, run_modifyState, run_modifyState, h]
  rfl

@[simp] theorem report_seen (f : Fault) :
    (report (f.seen v)).through v = (report f).viewed v :=
  modifyState_seen fun s => by simp [State.seen]

/-- A fault that quotes nothing from the source. -/
theorem report_place_seen {c : Cause} (h : c.seen v = c) (place : Span) :
    (report ⟨c, place.seen v⟩).through v = (report ⟨c, place⟩).viewed v := by
  rw [← report_seen, Fault.seen, h]

section Parts
variable [Visible α] {p : Parser α} [h : Commutes v p]

instance Commutes.catchFailure : Commutes v (catchFailure p) where
  through_eq := by
    ext1 s
    rw [run_through, run_viewed, run_catchFailure, run_catchFailure, run_seen h.through_eq]
    rfl

instance Commutes.attempt : Commutes v (attempt p) where
  through_eq := by
    ext1 s
    simp only [run_through, run_viewed, Parser.attempt, run_seen h.through_eq]
    rcases p.run s with ⟨_ | a, s'⟩ <;> rfl

instance Commutes.withAngled (b : Bool) : Commutes v (withAngled b p) where
  through_eq := by
    ext1 s
    rw [run_through, run_viewed, run_withAngled, run_withAngled]
    have hr : ({ s.seen v with angled := b } : State) = { s with angled := b }.seen v := rfl
    rw [hr, run_seen h.through_eq]
    rfl

instance Commutes.inBlock (b : Block) : Commutes v (inBlock b p) where
  through_eq := by
    ext1 s
    rw [run_through, run_viewed, run_inBlock, run_inBlock]
    have hr : ({ s.seen v with blocks := b :: (s.seen v).blocks } : State) =
        { s with blocks := b :: s.blocks }.seen v := rfl
    rw [hr, run_seen h.through_eq]
    rfl

end Parts

@[simp] theorem State.seen_length (s : State) : (s.seen v).rest.length = s.rest.length :=
  List.length_map _

/-- A loop commutes when its step does. -/
theorem loop_seen [Visible β] [Visible γ] {f g : β → Parser (Step β γ)}
    (h : ∀ b, (g (seen v b)).through v = (f b).viewed v) (b : β) :
    (loop g (seen v b)).through v = (loop f b).viewed v := by
  ext1 s
  rw [run_through, run_viewed]
  induction hk : s.rest.length using Nat.strongRecOn generalizing b s with
  | ind k ih =>
    have hs := run_seen (h b) s
    rw [loop_run, hs, loop_run]
    rcases (f b).run s with ⟨_ | b' | c, s'⟩
    · rfl
    · simp only [Option.map_some, seen, Step.seen, State.seen_length]
      split
      next hlt => exact ih _ (hk ▸ hlt) b' s' rfl
      next => rfl
    · rfl

/-- A knot commutes when its body does around commuting parsers. -/
theorem knot_seen [Visible α] {body : (ι → Parser α) → ι → Parser α}
    (h : ∀ nested : ι → Parser α, (∀ j, Commutes v (nested j)) → ∀ i, Commutes v (body nested i))
    (i : ι) : Commutes v (knot body i) where
  through_eq := by
    ext1 s
    rw [run_through, run_viewed]
    induction hk : s.rest.length using Nat.strongRecOn generalizing i s with
    | ind k ih =>
      rw [knot_run, knot_run, State.seen_length]
      refine run_seen (h _ (fun j => ⟨?_⟩) i).through_eq s
      ext1 s'
      rw [run_through, run_viewed]
      simp only [below, State.seen_length]
      split
      next hlt => exact ih _ (hk ▸ hlt) j s' rfl
      next => rfl

namespace State
variable (s : State)

@[simp] theorem seen_begun : (s.seen v).begun = s.begun := rfl

@[simp] theorem seen_angled : (s.seen v).angled = s.angled := rfl

@[simp] theorem seen_blocks : (s.seen v).blocks = s.blocks := rfl

@[simp] theorem seen_rest : (s.seen v).rest = s.rest.map (Token.seen v) := rfl

@[simp] theorem kind?_seen : (s.seen v).kind? = s.kind? := by
  simp [kind?, Function.comp_def]

@[simp] theorem isAt_seen (k : TokenKind) : (s.seen v).isAt k = s.isAt k := by
  simp [isAt]

@[simp] theorem onLine_seen : (s.seen v).onLine = s.onLine := by
  cases hr : s.rest <;> simp [onLine, hr]

@[simp] theorem isAtOnLine_seen (k : TokenKind) : (s.seen v).isAtOnLine k = s.isAtOnLine k := by
  simp [isAtOnLine]

@[simp] theorem expressionNext_seen : (s.seen v).expressionNext = s.expressionNext := by
  cases hr : s.rest <;> simp [expressionNext, hr]

@[simp] theorem operandNext_seen : (s.seen v).operandNext = s.operandNext := by
  cases hr : s.rest <;> simp [operandNext, hr]

@[simp] theorem nameNext_seen : (s.seen v).nameNext = s.nameNext := by
  cases hr : s.rest <;> simp [nameNext, hr]

@[simp] theorem isBeforeKeyword_seen (k : Keyword) :
    (s.seen v).isBeforeKeyword k = s.isBeforeKeyword k := by
  unfold isBeforeKeyword
  rcases hr : s.rest with _ | ⟨t, _ | ⟨u, us⟩⟩ <;> simp [hr]

@[simp] theorem atEndCase_seen : (s.seen v).atEndCase = s.atEndCase := by
  simp [atEndCase]

@[simp] theorem atLoneEnd_seen : (s.seen v).atLoneEnd = s.atLoneEnd := by
  simp [atLoneEnd]

@[simp] theorem mayEndStatement_seen : (s.seen v).mayEndStatement = s.mayEndStatement := by
  cases hr : s.rest <;> simp [mayEndStatement, hr]

@[simp] theorem since_seen (n : Nat) : (s.seen v).since (v.offset n) = (s.since n).seen v := by
  cases hp : s.previous <;> simp [since, seen, hp, v.monotone.map_max]

@[simp] theorem endSpan_seen : (s.seen v).endSpan = s.endSpan.seen v := by
  cases hp : s.previous <;> simp [endSpan, seen, hp, v.offset_zero]

@[simp] theorem unexpected_seen (d : String) :
    (s.seen v).unexpected d = (s.unexpected d).seen v := by
  have he : v.text "end of line" = "end of line" := v.text_eq (by decide)
  cases hr : s.rest with
  | nil => simp [unexpected, hr, Fault.seen, Cause.seen]
  | cons t ts =>
    cases hb : t.lineStart && s.begun with
    | false => simp [unexpected, hr, hb, Fault.seen, Cause.seen]
    | true =>
      cases hp : s.previous <;> simp [unexpected, hr, hb, hp, seen, Fault.seen, Cause.seen, he]

end State

instance : Commutes v next where
  through_eq := by
    ext1 s
    rw [run_through, run_viewed]
    cases hr : s.rest with
    | nil => simp [next, hr]
    | cons t ts =>
      simp only [next, State.seen_rest, hr]
      rfl

theorem State.drop_seen (s : State) (n : Nat) : (s.seen v).drop n = (s.drop n).seen v := by
  induction n generalizing s with
  | zero => rfl
  | succ n ih =>
    cases hr : s.rest with
    | nil => simp [drop, hr]
    | cons t ts =>
      rw [drop, drop, State.seen_rest, hr]
      exact ih { s with rest := ts, previous := some t, begun := true }

instance (n : Nat) : Commutes v (skip n) := ⟨modifyState_seen fun s => s.drop_seen n⟩

instance (d : String) : Commutes v (reportExpected d) := ⟨by simp [reportExpected]⟩

instance [Visible α] (d : String) : Commutes v (expected d : Parser α) := ⟨by simp [expected]⟩

instance (k : TokenKind) : Commutes v (acceptAnywhere k) := ⟨by simp [acceptAnywhere]⟩

instance (k : TokenKind) : Commutes v (accept k) := ⟨by simp [accept]⟩

instance (y : Symbol) : Commutes v (acceptSymbol y) := inferInstanceAs (Commutes v (accept _))

instance (k : Keyword) : Commutes v (acceptKeyword k) := inferInstanceAs (Commutes v (accept _))

instance (k : TokenKind) (d : String) : Commutes v (require k d) := ⟨by simp [require]⟩

instance (y : Symbol) : Commutes v (requireSymbol y) := inferInstanceAs (Commutes v (require ..))

instance (k : Keyword) : Commutes v (requireKeyword k) := inferInstanceAs (Commutes v (require ..))

instance (d : String) : Commutes v (name d) := ⟨by simp [name]⟩

section Lists
variable [Visible α] (p : Parser α) [Commutes v p]

instance (k : Keyword) : Commutes v (afterKeyword? k p) := ⟨by simp [afterKeyword?]⟩

instance : Commutes v (afterComma? p) := ⟨by simp [afterComma?]⟩

instance : Commutes v (commaList p) where
  through_eq := by
    have hstep : ∀ as : List α,
        (commaStep p (as.map (seen v))).through v = (commaStep p as).viewed v :=
      fun as => by simp [commaStep]
    have hloop : ∀ a,
        (loop (commaStep p) [seen v a]).through v = (loop (commaStep p) [a]).viewed v :=
      fun a => loop_seen hstep [a]
    simp [commaList, hloop]

end Lists

theorem State.skipWhile_seen {p : Token → Bool} (hp : ∀ t, p (t.seen v) = p t) (s : State) :
    (s.seen v).skipWhile p = (s.skipWhile p).seen v := by
  have hc : p ∘ Token.seen v = p := funext hp
  simp only [skipWhile, seen, List.takeWhile_map, List.dropWhile_map, hc, List.isEmpty_map,
    List.getLast?_map]
  cases (s.rest.takeWhile p).getLast? <;> rfl

instance : Commutes v skipToBoundary := ⟨modifyState_seen (State.skipWhile_seen fun _ => rfl)⟩

instance (left : Nat) : Commutes v (recover left) := ⟨by simp [recover]⟩

instance [Visible α] (p : Parser α) [Commutes v p] : Commutes v (orSkip p) where
  through_eq := by
    simp only [orSkip, through_bind, through_eq_viewed, viewed_then, viewed_bind]
    congr 1
    funext a
    cases a <;> simp

theorem State.isPending_seen (hv : v.comments = true) (s : State) (c : Comment) :
    (s.seen v).isPending (c.seen v) = s.isPending c := by
  cases hr : s.rest <;> simp [isPending, hr, Comment.seen, v.offset_lt_iff hv]

/-- Which comments stand before the next token is seen where comments are. -/
instance : Commutes v pendingComments where
  through_eq := by
    ext1 s
    rw [run_through, run_viewed]
    cases hv : v.comments with
    | false => simp [pendingComments, State.seen, Comment.seenAll, hv]
    | true =>
      have hc : (s.seen v).isPending ∘ Comment.seen v = s.isPending := funext (s.isPending_seen hv)
      have hs : (s.seen v).comments = s.comments.map (Comment.seen v) := by
        simp [State.seen, Comment.seenAll, hv]
      simp only [pendingComments, hs, List.takeWhile_map, List.dropWhile_map, hc]
      simp [State.seen, Comment.seenAll, hv]

end Parser
end PickSyntax
