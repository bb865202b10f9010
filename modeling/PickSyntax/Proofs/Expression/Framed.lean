import PickSyntax.Proofs.Expression.Climbing

/-!
# The frame of an expression

Reading an expression moves the cursor and nothing else: the open blocks, the comments and the
angle context are those of the start, and so is the place where the statement began. A success
has taken a token and recorded no fault; a failure has recorded one.

An attempt at `NAME<…>` that is given up is undone. Undoing the cursor and the faults is
enough for that, since nothing else can have moved: `rewind` goes back to a checkpoint that
remembers these two alone, and the whole state is then the one at the checkpoint. The attempts
nested in a reference are covered by the same statement, each at its own checkpoint.
-/
namespace PickSyntax.Parser

variable {α β : Type}

/-- The cursor, and the number of faults on record. What lies at the cursor is the rest of the
tokens, the token before it, and whether the statement has begun. -/
structure Checkpoint where
  rest : List Token
  previous : Option Token
  begun : Bool
  faults : Nat

namespace State

def checkpoint (s : State) : Checkpoint := ⟨s.rest, s.previous, s.begun, s.faults.length⟩

/-- Takes the cursor back and drops the faults recorded since. All else stays as it is. -/
def rewind (s : State) (c : Checkpoint) : State :=
  { s with
    rest := c.rest
    previous := c.previous
    begun := c.begun
    faults := s.faults.take c.faults }

/-- Tokens have been taken and faults been added, and nothing else has changed. -/
def Framed (s s' : State) : Prop := ∃ ts, s.Took ts s' ∧ s.faults <+: s'.faults

theorem Framed.refl (s : State) : s.Framed s := ⟨[], .refl s, List.prefix_rfl⟩

theorem Framed.trans {s s' s'' : State} (h : s.Framed s') (k : s'.Framed s'') : s.Framed s'' := by
  obtain ⟨ts, ht, hf⟩ := h
  obtain ⟨us, hu, hg⟩ := k
  exact ⟨ts ++ us, ht.trans hu, hf.trans hg⟩

/-- Within the frame, a checkpoint holds all that has to be restored. -/
theorem Framed.rewind_eq {s s' : State} (h : s.Framed s') : s'.rewind s.checkpoint = s := by
  obtain ⟨ts, ht, hf⟩ := h
  have hfaults : s'.faults.take s.faults.length = s.faults :=
    (List.prefix_iff_eq_take.mp hf).symm
  simp only [rewind, checkpoint, hfaults, ht.comments, ht.blocks, ht.angled]

end State

/-- Runs `p`; if it fails, the state goes back to the checkpoint before it. -/
def rewinding (p : Parser α) : Parser (Option α) where
  run s :=
    match p.run s with
    | (some a, s') => (some (some a), s')
    | (none, s') => (some none, s'.rewind s.checkpoint)

/-- The parser keeps the frame, whether it succeeds or fails. -/
def Frames (p : Parser α) : Prop := ∀ s : State, s.Framed (p.run s).2

/-- For a parser that keeps the frame, a checkpoint is as good as the whole state. -/
theorem Frames.attempt_eq {p : Parser α} (h : Frames p) : attempt p = rewinding p := by
  ext1 s
  have hs := h s
  rcases hr : p.run s with ⟨_ | a, s'⟩ <;> rw [hr] at hs
  · simp only [attempt, rewinding, hr, hs.rewind_eq]
  · simp only [attempt, rewinding, hr]

theorem Meets.framed {p : Parser α} {s : State} {Q : List Token → α → State → Prop}
    (h : Meets p s Q) : s.Framed (p.run s).2 := by
  obtain ⟨ts, ht, h⟩ := h
  refine ⟨ts, ht, ?_⟩
  cases hr : (p.run s).1 with
  | none =>
    rw [hr] at h
    obtain ⟨f, hf⟩ := h
    exact hf ▸ List.prefix_append ..
  | some v =>
    rw [hr] at h
    exact h.1 ▸ List.prefix_rfl

namespace Frames
variable {p q : Parser α} {f : α → Parser β}

theorem pure (a : α) : Frames (pure a : Parser α) := .refl

theorem fail : Frames (fail : Parser α) := .refl

theorem bind (hp : Frames p) (hf : ∀ a, Frames (f a)) : Frames (p >>= f) := by
  intro s
  have h := hp s
  rcases hr : p.run s with ⟨_ | a, s'⟩ <;> rw [hr] at h
  · rwa [run_bind_none hr]
  · rw [run_bind_some hr]
    exact h.trans (hf a s')

theorem look {f : State → Parser β} (hf : ∀ s, Frames (f s)) : Frames (look >>= f) :=
  bind .refl hf

theorem ite {c : Prop} [Decidable c] (hp : Frames p) (hq : Frames q) :
    Frames (if c then p else q) := by
  split
  · exact hp
  · exact hq

theorem skipOne : Frames (skip 1) := by
  intro s
  cases hr : s.rest with
  | nil => simpa [skip, State.drop, hr] using State.Framed.refl s
  | cons t us => exact (Meets.skipOne (Q := fun _ _ _ => True) hr trivial).framed

theorem acceptSymbol (y : Symbol) : Frames (acceptSymbol y) :=
  look fun _ => ite (bind skipOne fun _ => pure true) (pure false)

end Frames
end PickSyntax.Parser

namespace PickSyntax.Grammar

open PickSyntax.Parser

/-- The part after a name keeps the frame also where it does not close. -/
theorem angleSubscripts_frames : Frames (angleSubscripts expressionAt) := by
  have hlist (s : State) : Meets (expressionAt 0) s fun ts e _ => Listed ts [e] :=
    (expressionAt_meets 0 s).mono fun _ _ _ _ h => h.listed
  have hsubs : Frames (withAngled true (subscripts expressionAt)) := fun s =>
    (Meets.withAngled (Q := fun _ _ _ => True) ((subscripts_meets (P := Listed)
      (s := { s with angled := true }) (fun s _ => hlist s) (Nat.lt_succ_self _)).mono
      fun _ _ _ _ _ => trivial)).framed
  refine .bind .skipOne fun _ => .bind hsubs fun subs => .bind (.acceptSymbol _) fun closed => ?_
  exact .ite (.look fun _ => .ite .fail (.pure subs)) .fail

/-- Where the part after a name fails, the name stands alone. -/
theorem run_named_dynamic {s s' : State} {t : Token} {us : List Token} (hr : s.rest = t :: us)
    (ha : attachment us = .dynamic)
    (hs : (angleSubscripts expressionAt).run (s.past t us) = (none, s')) :
    (named expressionAt).run s = (some (.name t.text t.span), s.past t us) := by
  have hrest : (s.past t us).rest = us := rfl
  rw [named, run_bind_some (run_next hr)]
  simp only [run_bind, run_look, hrest, ha, run_attempt_none hs, run_pure]

/-- The frame of an expression. From every state, a success has taken tokens, recorded nothing
and moved nothing else; a failure has recorded one fault and moved nothing else. A reference is
attempted from a checkpoint of the cursor and the faults: wherever the part after a name is
given up, going back to the checkpoint restores the whole state behind the name, and the name is
read alone from there. -/
theorem expression_framed :
    (∀ (s s' : State) (e : Expr), expression.run s = (some e, s') →
      ∃ ts, ts ≠ [] ∧ s.Took ts s' ∧ s'.faults = s.faults) ∧
    (∀ s s' : State, expression.run s = (none, s') →
      ∃ ts f, s.Took ts s' ∧ s'.faults = s.faults ++ [f]) ∧
    attempt (angleSubscripts expressionAt) = rewinding (angleSubscripts expressionAt) ∧
    ∀ (s s' : State) (t : Token) (us : List Token), s.rest = t :: us →
      attachment us = .dynamic →
      (angleSubscripts expressionAt).run (s.past t us) = (none, s') →
      s'.rewind (s.past t us).checkpoint = s.past t us ∧
        (named expressionAt).run s = (some (.name t.text t.span), s.past t us) := by
  refine ⟨fun s s' e h => ?_, fun s s' h => ?_, angleSubscripts_frames.attempt_eq,
    fun s s' t us hr ha h => ?_⟩
  · obtain ⟨ts, ht, hf, hc⟩ := (expressionAt_meets 0 s).yields e s' h
    exact ⟨ts, hc.spells.ne_nil (by simp), ht, hf⟩
  · obtain ⟨ts, ht, hf⟩ := expressionAt_meets 0 s
    rw [show (expressionAt 0).run s = (none, s') from h] at ht hf
    obtain ⟨f, hf⟩ := hf
    exact ⟨ts, f, ht, hf⟩
  · have hframed := angleSubscripts_frames (s.past t us)
    rw [h] at hframed
    exact ⟨hframed.rewind_eq, run_named_dynamic hr ha h⟩

/-- The tokens of `A<B<1` after the name `A`. -/
def unclosedSubscripts : List Token :=
  let mark (n : Nat) : Token := ⟨.symbol .less, ⟨n, n + 1⟩, "<", .origin, false, false⟩
  [mark 1, ⟨.identifier, ⟨2, 3⟩, "B", .origin, false, false⟩, mark 3,
    ⟨.number, ⟨4, 5⟩, "1", .origin, false, false⟩]

/-- Neither reference closes. The inner attempt is given up inside the outer one, which is given
up after it, and the name `A` stands alone before its `<`. -/
theorem expression_framed_unclosed :
    let a : Token := ⟨.identifier, ⟨0, 1⟩, "A", .origin, true, false⟩
    let s : State := .start (a :: unclosedSubscripts) []
    ∃ s', (angleSubscripts expressionAt).run (s.past a unclosedSubscripts) = (none, s') ∧
      s'.rewind (s.past a unclosedSubscripts).checkpoint = s.past a unclosedSubscripts ∧
      (named expressionAt).run s = (some (.name "A" ⟨0, 1⟩), s.past a unclosedSubscripts) := by
  intro a s
  obtain ⟨s', h⟩ : ∃ s',
      (angleSubscripts expressionAt).run (s.past a unclosedSubscripts) = (none, s') :=
    ⟨_, by cbv⟩
  exact ⟨s', h, expression_framed.2.2.2 s s' a unclosedSubscripts rfl rfl h⟩

end PickSyntax.Grammar
