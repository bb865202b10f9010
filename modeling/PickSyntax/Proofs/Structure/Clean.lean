import PickSyntax.Proofs.Parser.Accounting
import PickSyntax.Proofs.Parser.Onward

/-!
# Clean runs

`Clean p s Q` speaks about the runs of a parser that succeed and record nothing. Faults are
never taken back, so each part of a clean run is clean, and a parser that has recorded a fault
is never followed by one that is asked for anything.
-/
namespace PickSyntax.Parser

variable {α β γ : Type}

/-- Every success of `p` from `s` that records nothing is as `Q` says. -/
def Clean (p : Parser α) (s : State) (Q : α → State → Prop) : Prop :=
  ∀ v s', p.run s = (some v, s') → s'.faults.length = s.faults.length → Q v s'

namespace Clean
variable {p q : Parser α} {f : α → Parser β} {s : State} {Q Q' : α → State → Prop}
variable {R : β → State → Prop}

theorem pure {v : α} (h : Q v s) : Clean (pure v) s Q := by
  intro v' s' hr _
  cases hr
  exact h

/-- After a report no run is clean. -/
theorem report {fault : Fault} {Q : Unit → State → Prop} : Clean (report fault) s Q := by
  intro v s' hr hf
  cases hr
  simp at hf

theorem mono (h : Clean p s Q) (hq : ∀ v s', Q v s' → Q' v s') : Clean p s Q' :=
  fun v s' hr hf => hq v s' (h v s' hr hf)

theorem of_reaches [hp : Onward p] (h : ∀ v s', s.Reaches s' → Q v s') : Clean p s Q := by
  intro v s' hr _
  have hreach := hp.reaches s
  rw [hr] at hreach
  exact h v s' hreach

theorem bind [hp : Onward p] [hf : ∀ a, Onward (f a)]
    (h : Clean p s fun a s' => s.Reaches s' → Clean (f a) s' R) : Clean (p >>= f) s R := by
  intro b s'' hr hfaults
  have hreach := hp.reaches s
  rcases hp' : p.run s with ⟨_ | a, s'⟩
  · rw [run_bind_none hp'] at hr
    cases hr
  · rw [run_bind_some hp'] at hr
    rw [hp'] at hreach
    have hlast := (hf a).faults_le s'
    rw [hr] at hlast
    have hfirst : s.faults.length ≤ s'.faults.length := hreach.faults
    have hlast : s'.faults.length ≤ s''.faults.length := hlast
    exact h a s' hp' (by omega) hreach b s'' hr (by omega)

/-- The rule for a second parser that is chosen by the first one's value. -/
theorem bind_of [Onward p] (hf : ∀ a, Onward (f a))
    (h : Clean p s fun a s' => s.Reaches s' → Clean (f a) s' R) : Clean (p >>= f) s R :=
  bind h

/-- A parser of which nothing needs to be known but that it goes on. -/
theorem past [hp : Onward p] [hf : ∀ a, Onward (f a)]
    (h : ∀ a s', s.Reaches s' → Clean (f a) s' R) : Clean (p >>= f) s R :=
  bind (of_reaches fun a s' hreach _ => h a s' hreach)

theorem look {f : State → Parser β} (h : Clean (f s) s R) : Clean (look >>= f) s R := h

theorem enclosing {f : List Block → Parser β} {b : Block} {outer : List Block}
    (hb : s.blocks = b :: outer) (h : Clean (f outer) s R) : Clean (enclosing >>= f) s R := by
  unfold Clean
  rwa [run_bind_some (run_enclosing hb)]

theorem ite {c : Prop} [Decidable c] (ht : c → Clean p s Q) (he : ¬c → Clean q s Q) :
    Clean (if c then p else q) s Q := by
  split
  next h => exact ht h
  next h => exact he h

theorem loop {step : β → Parser (Step β γ)} [hstep : ∀ v, Onward (step v)]
    {I : β → State → Prop} {Q : γ → State → Prop}
    (h : ∀ v s, I v s → Clean (step v) s fun r s' => s.Reaches s' → r.Says (I · s') (Q · s'))
    {v : β} {s : State} (hi : I v s) : Clean (loop step v) s Q := by
  intro c s'' hr hfaults
  induction hk : s.rest.length using Nat.strongRecOn generalizing v s with
  | ind k ih =>
    have hreach := (hstep v).reaches s
    rw [loop_run] at hr
    rcases hs : (step v).run s with ⟨_ | v' | c', s'⟩ <;> rw [hs] at hr hreach <;> dsimp only at hr
    · cases hr
    · split at hr
      next hlt =>
        have hlast := (@Onward.loop _ _ step hstep v').faults_le s'
        rw [hr] at hlast
        have hfirst : s.faults.length ≤ s'.faults.length := hreach.faults
        have hlast : s'.faults.length ≤ s''.faults.length := hlast
        exact ih _ (hk ▸ hlt) (h v s hi _ _ hs (by omega) hreach) hr (by omega) rfl
      next => cases hr
    · cases hr
      exact h v s hi _ _ hs hfaults hreach

theorem skipOne {t : Token} {us : List Token} {Q : Unit → State → Prop} (hr : s.rest = t :: us)
    (h : Q () (s.past t us)) : Clean (skip 1) s Q := by
  intro v s' hs _
  rw [run_skip_one hr] at hs
  cases hs
  exact h

theorem skipTwo {t u : Token} {us : List Token} {Q : Unit → State → Prop}
    (hr : s.rest = t :: u :: us) (h : Q () ((s.past t (u :: us)).past u us)) :
    Clean (skip 2) s Q := by
  intro v s' hs _
  rw [run_skip_two hr] at hs
  cases hs
  exact h

theorem next {t : Token} {us : List Token} {Q : Token → State → Prop} (hr : s.rest = t :: us)
    (h : Q t (s.past t us)) : Clean next s Q := by
  intro v s' hs _
  rw [run_next hr] at hs
  cases hs
  exact h

theorem accept {k : TokenKind} {Q : Bool → State → Prop}
    (ht : ∀ t us, s.rest = t :: us → t.kind = k → Q true (s.past t us)) (hf : Q false s) :
    Clean (accept k) s Q := by
  refine look (ite (fun h => ?_) fun _ => pure hf)
  obtain ⟨t, us, hr, hk, -⟩ := State.rest_of_isAtOnLine h
  exact bind (skipOne hr fun _ => pure (ht t us hr hk))

theorem acceptAnywhere {k : TokenKind} {Q : Bool → State → Prop}
    (ht : ∀ t us, s.rest = t :: us → t.kind = k → Q true (s.past t us)) (hf : Q false s) :
    Clean (acceptAnywhere k) s Q := by
  refine look (ite (fun h => ?_) fun _ => pure hf)
  obtain ⟨t, us, hr, hk⟩ := State.rest_of_isAt h
  exact bind (skipOne hr fun _ => pure (ht t us hr hk))

theorem reportExpected {d : String} {Q : Unit → State → Prop} : Clean (reportExpected d) s Q :=
  look report

theorem expected {d : String} : Clean (expected d) s Q := bind reportExpected

/-- A failure that is on record does not happen on a clean run. -/
theorem catchFailure {Q : Option α → State → Prop}
    (hfail : ∀ s', p.run s = (none, s') → s.faults.length < s'.faults.length)
    (h : Clean p s fun a s' => Q (some a) s') : Clean (catchFailure p) s Q := by
  intro o s' hr hf
  rw [run_catchFailure] at hr
  rcases hp : p.run s with ⟨_ | a, s₁⟩ <;> rw [hp] at hr <;> cases hr
  · have hlt := hfail _ hp
    exact absurd hf (Nat.ne_of_gt hlt)
  · exact h _ _ hp hf

theorem orSkip {Q : Option α → State → Prop} [hp : Onward p]
    (hfail : ∀ s', p.run s = (none, s') → s.faults.length < s'.faults.length)
    (h : Clean p s fun a s' => Q (some a) s') : Clean (orSkip p) s Q := by
  refine bind_of (fun o => by cases o <;> infer_instance) (catchFailure hfail (h.mono ?_))
  intro a s' hq _
  exact pure hq

end Clean

end PickSyntax.Parser
