import PickSyntax.Fault
import PickSyntax.Token

/-!
# Parsers

A parser reads tokens from the front of a list and either yields a value or fails;
in both cases it leaves a state. Faults are part of the state and not of the
failure: a parser that fails has said why before, and its caller decides where to
go on.

Recursion goes through two combinators. `loop` repeats a step, and `knot` ties a
parser that refers to itself; both go round again only when a token has been
consumed since, so that they end on every list of tokens.
-/
namespace PickSyntax

/-- The statement lists that a terminator closes. -/
inductive Block where
  /-- After `THEN`, closed by `ELSE` or `END`. -/
  | thenBody
  /-- After `ELSE`, closed by `END`. -/
  | elseBody
  /-- After `FOR`, closed by `NEXT`. -/
  | forBody
  /-- After `LOOP`, closed by `WHILE`, `UNTIL` or `REPEAT`. -/
  | loopBefore
  /-- After the condition of a loop, closed by `REPEAT`. -/
  | loopAfter
  /-- After `CASE`, closed by the next `CASE` or by `END CASE`. -/
  | caseBody
  deriving DecidableEq, Repr, Inhabited

structure Parser.State where
  /-- The tokens not yet consumed. -/
  rest : List Token
  /-- The last token consumed. -/
  previous : Option Token
  /-- A token of the current statement has been consumed. -/
  begun : Bool
  /-- The comments not yet placed in the tree. -/
  comments : List Comment
  /-- The open blocks, innermost first. -/
  blocks : List Block
  /-- Inside `NAME<…>`, where a lone `>` closes the reference. -/
  angled : Bool
  /-- The faults found so far, in the order of finding. -/
  faults : List Fault
  deriving Inhabited

/-- A parser for values of type `α`. -/
structure Parser (α : Type) where
  run : Parser.State → Option α × Parser.State

namespace Parser

variable {α β γ ι : Type}

@[ext] theorem ext {p q : Parser α} (h : ∀ s, p.run s = q.run s) : p = q := by
  cases p
  cases q
  congr
  exact funext h

/-- Yields a value and reads nothing. -/
def give (a : α) : Parser α := ⟨fun s => (some a, s)⟩

/-- Runs `p`, and then `f` on its value if there is one. -/
def andThen (p : Parser α) (f : α → Parser β) : Parser β where
  run s :=
    match p.run s with
    | (some a, s') => (f a).run s'
    | (none, s') => (none, s')

instance : Monad Parser where
  pure := give
  bind := andThen

@[simp] theorem run_pure (a : α) (s : State) : (pure a : Parser α).run s = (some a, s) := rfl

theorem run_bind (p : Parser α) (f : α → Parser β) (s : State) :
    (p >>= f).run s = match p.run s with
      | (some a, s') => (f a).run s'
      | (none, s') => (none, s') := rfl

/-- A parser that yields a value hands its state on. -/
theorem run_bind_some {p : Parser α} {s s' : State} {a : α} (h : p.run s = (some a, s'))
    (f : α → Parser β) : (p >>= f).run s = (f a).run s' := by
  rw [run_bind, h]

/-- A parser that fails ends the whole. -/
theorem run_bind_none {p : Parser α} {s s' : State} (h : p.run s = (none, s'))
    (f : α → Parser β) : (p >>= f).run s = (none, s') := by
  rw [run_bind, h]

instance : LawfulMonad Parser := LawfulMonad.mk' Parser
  (fun p => by
    ext1 s
    change (p >>= pure).run s = p.run s
    rcases h : p.run s with ⟨_ | a, s'⟩
    · exact run_bind_none h _
    · exact run_bind_some h _)
  (fun _ _ => rfl)
  (fun p f g => by
    ext1 s
    rcases h : p.run s with ⟨_ | a, s'⟩
    · rw [run_bind_none h, run_bind_none (run_bind_none h f)]
    · rw [run_bind_some h, run_bind, run_bind_some h f, run_bind])

/-- Yields the state. -/
def look : Parser State := ⟨fun s => (some s, s)⟩

def modifyState (f : State → State) : Parser Unit := ⟨fun s => (some (), f s)⟩

/-- Fails without a word. -/
def fail : Parser α := ⟨fun s => (none, s)⟩

@[simp] theorem run_look (s : State) : look.run s = (some s, s) := rfl

@[simp] theorem run_modifyState (f : State → State) (s : State) :
    (modifyState f).run s = (some (), f s) := rfl

@[simp] theorem run_fail (s : State) : (fail : Parser α).run s = (none, s) := rfl

/-- Records a fault and goes on. -/
def report (f : Fault) : Parser Unit := modifyState fun s => { s with faults := s.faults ++ [f] }

/-- Runs `p`; a failure becomes `none`, and the state stays as `p` left it. -/
def catchFailure (p : Parser α) : Parser (Option α) where
  run s :=
    match p.run s with
    | (a, s') => (some a, s')

theorem run_catchFailure (p : Parser α) (s : State) :
    (catchFailure p).run s = (some (p.run s).1, (p.run s).2) := rfl

/-- Runs `p`; if it fails, nothing has happened. -/
def attempt (p : Parser α) : Parser (Option α) where
  run s :=
    match p.run s with
    | (some a, s') => (some (some a), s')
    | (none, _) => (some none, s)

/-- Runs `p` with the angle context set, and sets it back. -/
def withAngled (angled : Bool) (p : Parser α) : Parser α where
  run s :=
    match p.run { s with angled := angled } with
    | (a, s') => (a, { s' with angled := s.angled })

theorem run_withAngled (b : Bool) (p : Parser α) (s : State) :
    (withAngled b p).run s = ((p.run { s with angled := b }).1,
      { (p.run { s with angled := b }).2 with angled := s.angled }) := rfl

/-- Runs `p` inside one more block, and drops the innermost block that `p` leaves. -/
def inBlock (block : Block) (p : Parser α) : Parser α where
  run s :=
    match p.run { s with blocks := block :: s.blocks } with
    | (a, s') => (a, { s' with blocks := s'.blocks.tail })

theorem run_inBlock (block : Block) (p : Parser α) (s : State) :
    (inBlock block p).run s = ((p.run { s with blocks := block :: s.blocks }).1,
      { (p.run { s with blocks := block :: s.blocks }).2 with
        blocks := (p.run { s with blocks := block :: s.blocks }).2.blocks.tail }) := rfl

/-- The blocks around the innermost one. There is no telling them where no block is open. -/
def enclosing : Parser (List Block) where
  run s :=
    match s.blocks with
    | [] => (none, s)
    | _ :: outer => (some outer, s)

theorem run_enclosing {s : State} {block : Block} {outer : List Block}
    (h : s.blocks = block :: outer) : enclosing.run s = (some outer, s) := by
  simp only [enclosing, h]

theorem run_enclosing_nil {s : State} (h : s.blocks = []) : enclosing.run s = (none, s) := by
  simp only [enclosing, h]

/-- Either way nothing has happened. -/
theorem enclosing_state (s : State) : (enclosing.run s).2 = s := by
  cases h : s.blocks <;> simp only [enclosing, h]

/-- What a step of a loop decides: to go round again, or to stop with a result. -/
inductive Step (β γ : Type) where
  | more (value : β)
  | done (result : γ)

/-- Repeats `step` from a state on. -/
def loopFrom (step : β → Parser (Step β γ)) (value : β) (s : State) : Option γ × State :=
  match (step value).run s with
  | (none, s') => (none, s')
  | (some (.done result), s') => (some result, s')
  | (some (.more value'), s') =>
    if s'.rest.length < s.rest.length then loopFrom step value' s' else (none, s')
termination_by s.rest.length
decreasing_by assumption

/-- Repeats `step`, carrying a value along. -/
def loop (step : β → Parser (Step β γ)) (value : β) : Parser γ := ⟨loopFrom step value⟩

/-- Runs `body` from a state on, with itself for the nested parsers. -/
def knotFrom (body : (ι → Parser α) → ι → Parser α) (i : ι) (s : State) : Option α × State :=
  let nested (j : ι) : Parser α :=
    ⟨fun s' => if s'.rest.length < s.rest.length then knotFrom body j s' else (none, s')⟩
  (body nested i).run s
termination_by s.rest.length
decreasing_by assumption

/-- The parser that `body` describes in terms of itself. -/
def knot (body : (ι → Parser α) → ι → Parser α) (i : ι) : Parser α := ⟨knotFrom body i⟩

/-- Consumes the next token. -/
def next : Parser Token where
  run s :=
    match s.rest with
    | [] => (none, s)
    | t :: ts => (some t, { s with rest := ts, previous := some t, begun := true })

/-- The state after up to `n` more tokens. -/
def State.drop (s : State) : Nat → State
  | 0 => s
  | n + 1 =>
    match s.rest with
    | [] => s
    | t :: ts => State.drop { s with rest := ts, previous := some t, begun := true } n

/-- Consumes up to `n` tokens. -/
def skip (n : Nat) : Parser Unit := modifyState (State.drop · n)

end Parser
end PickSyntax
