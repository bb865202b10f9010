import PickSyntax.Parser.Lookahead

/-!
# Outcomes of one-line parsers

A parser that keeps to one statement has only two kinds of outcome. It succeeds, has
recorded nothing and has taken some tokens from the front of the list; or it fails, has
recorded exactly one fault, and has taken some tokens all the same. `Meets` says so of
one run, together with what a success has to satisfy: the tokens taken, the value and the
state after it.

Nothing else of the state moves in such a run. The comments, the open blocks and the
angle context are those of the start, also when the run has failed half way.

The rules below follow the combinators. Loops and knots carry the bound on the number of
tokens left that makes them end; a nested parser is only known below the bound, so its
caller has to have taken a token first.
-/
namespace PickSyntax.Parser

variable {α β γ ι : Type}

/-- `s'` is `s` after the tokens `ts`, up to faults recorded on the way. -/
structure State.Took (s : State) (ts : List Token) (s' : State) : Prop where
  rest : s.rest = ts ++ s'.rest
  previous : s'.previous = ts.getLast?.or s.previous
  begun : s'.begun = (s.begun || !ts.isEmpty)
  comments : s'.comments = s.comments
  blocks : s'.blocks = s.blocks
  angled : s'.angled = s.angled

namespace State.Took

theorem refl (s : State) : s.Took [] s :=
  ⟨rfl, rfl, by simp, rfl, rfl, rfl⟩

theorem trans {s s' s'' : State} {ts us : List Token} (h : s.Took ts s') (k : s'.Took us s'') :
    s.Took (ts ++ us) s'' where
  rest := by rw [h.rest, k.rest, List.append_assoc]
  previous := by rw [k.previous, h.previous, List.getLast?_append, Option.or_assoc]
  begun := by
    rw [k.begun, h.begun, Bool.or_assoc]
    cases ts <;> simp
  comments := k.comments.trans h.comments
  blocks := k.blocks.trans h.blocks
  angled := k.angled.trans h.angled

theorem length_le {s s' : State} {ts : List Token} (h : s.Took ts s') :
    s'.rest.length ≤ s.rest.length := by
  rw [h.rest, List.length_append]
  omega

theorem length_lt {s s' : State} {ts : List Token} (h : s.Took ts s') (hts : ts ≠ []) :
    s'.rest.length < s.rest.length := by
  have := List.length_pos_iff.mpr hts
  rw [h.rest, List.length_append]
  omega

end State.Took

/-- The run of `p` from `s` takes tokens and either succeeds without a fault, as `Q` says
of the tokens, the value and the last state, or fails with exactly one. -/
def Meets (p : Parser α) (s : State) (Q : List Token → α → State → Prop) : Prop :=
  ∃ ts, s.Took ts (p.run s).2 ∧
    match (p.run s).1 with
    | none => ∃ f, (p.run s).2.faults = s.faults ++ [f]
    | some v => (p.run s).2.faults = s.faults ∧ Q ts v (p.run s).2

/-- Every success of `p` from `s` is as `Q` says; a failure may leave any state. -/
def Yields (p : Parser α) (s : State) (Q : List Token → α → State → Prop) : Prop :=
  ∀ v s', p.run s = (some v, s') → ∃ ts, s.Took ts s' ∧ s'.faults = s.faults ∧ Q ts v s'

theorem run_attempt_some {p : Parser α} {s s' : State} {v : α} (h : p.run s = (some v, s')) :
    (attempt p).run s = (some (some v), s') := by
  simp only [attempt, h]

theorem run_attempt_none {p : Parser α} {s s' : State} (h : p.run s = (none, s')) :
    (attempt p).run s = (some none, s) := by
  simp only [attempt, h]

/-- An attempt yields a value only where the parser does. -/
theorem run_of_attempt {p : Parser α} {s s' : State} {v : α}
    (h : (attempt p).run s = (some (some v), s')) : p.run s = (some v, s') := by
  rcases hr : p.run s with ⟨_ | w, s₁⟩
  · rw [run_attempt_none hr] at h
    cases h
  · rw [run_attempt_some hr] at h
    cases h
    rfl

section Rules
variable {p : Parser α} {f : α → Parser β} {s : State}
variable {Q Q' : List Token → α → State → Prop} {R : List Token → β → State → Prop}

theorem Meets.mono (h : Meets p s Q)
    (hq : ∀ ts v s', s.Took ts s' → Q ts v s' → Q' ts v s') : Meets p s Q' := by
  obtain ⟨ts, ht, h⟩ := h
  refine ⟨ts, ht, ?_⟩
  cases hr : (p.run s).1 with
  | none => simpa only [hr] using h
  | some v =>
    rw [hr] at h
    exact ⟨h.1, hq ts v _ ht h.2⟩

theorem Meets.yields (h : Meets p s Q) : Yields p s Q := by
  intro v s' hr
  obtain ⟨ts, ht, h⟩ := h
  rw [hr] at ht h
  exact ⟨ts, ht, h⟩

theorem Meets.pure {v : α} (h : Q [] v s) : Meets (pure v) s Q :=
  ⟨[], .refl s, rfl, h⟩

theorem Meets.bind (h : Meets p s fun ts a s' => Meets (f a) s' fun us b s'' => R (ts ++ us) b s'') :
    Meets (p >>= f) s R := by
  obtain ⟨ts, ht, h⟩ := h
  rcases hr : p.run s with ⟨_ | a, s'⟩
  · rw [hr] at ht h
    refine ⟨ts, ?_, ?_⟩ <;> rw [run_bind_none hr]
    · exact ht
    · exact h
  · rw [hr] at ht h
    obtain ⟨hf, us, hu, h⟩ := h
    refine ⟨ts ++ us, ?_, ?_⟩ <;> rw [run_bind_some hr]
    · exact ht.trans hu
    · rw [← show s'.faults = s.faults from hf]
      exact h

/-- A run whose outcome is known, and the parser after it. -/
theorem Meets.andThen (h : Meets p s Q) (hf : ∀ ts a s', s.Took ts s' → Q ts a s' →
    Meets (f a) s' fun us b s'' => R (ts ++ us) b s'') : Meets (p >>= f) s R :=
  Meets.bind (h.mono hf)

theorem Yields.bind (h : Yields p s fun ts a s' => Yields (f a) s' fun us b s'' => R (ts ++ us) b s'') :
    Yields (p >>= f) s R := by
  intro b s'' hr
  rcases hp : p.run s with ⟨_ | a, s'⟩
  · rw [run_bind_none hp] at hr
    cases hr
  · rw [run_bind_some hp] at hr
    obtain ⟨ts, ht, hf, h⟩ := h a s' hp
    obtain ⟨us, hu, hg, h⟩ := h b s'' hr
    exact ⟨ts ++ us, ht.trans hu, hg.trans hf, h⟩

theorem Yields.fail : Yields (fail : Parser α) s Q := by
  intro v s' h
  cases h

theorem Meets.look {f : State → Parser β} (h : Meets (f s) s R) : Meets (look >>= f) s R := h

theorem Yields.look {f : State → Parser β} (h : Yields (f s) s R) : Yields (look >>= f) s R := h

theorem Meets.ite {q : Parser α} {c : Prop} [Decidable c] (ht : c → Meets p s Q)
    (he : ¬c → Meets q s Q) : Meets (if c then p else q) s Q := by
  split
  next h => exact ht h
  next h => exact he h

theorem Yields.ite {q : Parser α} {c : Prop} [Decidable c] (ht : c → Yields p s Q)
    (he : ¬c → Yields q s Q) : Yields (if c then p else q) s Q := by
  split
  next h => exact ht h
  next h => exact he h

/-- The angle context of a nested run is not seen outside. -/
theorem Meets.withAngled {b : Bool}
    (h : Meets p { s with angled := b } fun ts v s' => Q ts v { s' with angled := s.angled }) :
    Meets (withAngled b p) s Q := by
  obtain ⟨ts, ht, h⟩ := h
  exact ⟨ts, ⟨ht.rest, ht.previous, ht.begun, ht.comments, ht.blocks, rfl⟩, h⟩

/-- An attempt that fails has changed nothing at all. -/
theorem Meets.attempt {Q : List Token → Option α → State → Prop}
    (h : Yields p s fun ts v s' => Q ts (some v) s') (hn : Q [] none s) :
    Meets (attempt p) s Q := by
  unfold Meets
  rcases hr : p.run s with ⟨_ | v, s'⟩
  · rw [run_attempt_none hr]
    exact ⟨[], .refl s, rfl, hn⟩
  · obtain ⟨ts, ht, hf, h⟩ := h v s' hr
    rw [run_attempt_some hr]
    exact ⟨ts, ht, hf, h⟩

end Rules

/-- Every value that `p` yields from `s` satisfies `Q` in the state left behind. -/
def Returns (p : Parser α) (s : State) (Q : α → State → Prop) : Prop :=
  ∀ v s', p.run s = (some v, s') → Q v s'

section Values
variable {p q : Parser α} {f : α → Parser β} {s : State} {Q : α → State → Prop}
variable {R : β → State → Prop}

theorem Returns.pure {v : α} (h : Q v s) : Returns (pure v) s Q := by
  intro v' s' hr
  cases hr
  exact h

theorem Returns.bind (h : ∀ a s', p.run s = (some a, s') → Returns (f a) s' R) :
    Returns (p >>= f) s R := by
  intro b s'' hr
  rcases hp : p.run s with ⟨_ | a, s'⟩
  · rw [run_bind_none hp] at hr
    cases hr
  · rw [run_bind_some hp] at hr
    exact h a s' hp b s'' hr

theorem Returns.fail : Returns (fail : Parser α) s Q := by
  intro v s' hr
  cases hr

theorem Returns.look {f : State → Parser β} (h : Returns (f s) s R) : Returns (look >>= f) s R := h

theorem Returns.enclosing {f : List Block → Parser β} (h : ∀ outer, Returns (f outer) s R) :
    Returns (enclosing >>= f) s R := by
  refine Returns.bind fun outer s' hr => ?_
  obtain rfl : s' = s := by rw [← enclosing_state s, hr]
  exact h outer

theorem Returns.ite {c : Prop} [Decidable c] (ht : c → Returns p s Q) (he : ¬c → Returns q s Q) :
    Returns (if c then p else q) s Q := by
  split
  next h => exact ht h
  next h => exact he h

/-- A run whose values are known, and the parser after it. -/
theorem Returns.andThen (h : Returns p s Q) (hf : ∀ a s', Q a s' → Returns (f a) s' R) :
    Returns (p >>= f) s R :=
  Returns.bind fun a s' hr => hf a s' (h a s' hr)

theorem Returns.withAngled {b : Bool}
    (h : Returns p { s with angled := b } fun v s' => Q v { s' with angled := s.angled }) :
    Returns (withAngled b p) s Q := by
  intro v s' hr
  rcases hp : p.run { s with angled := b } with ⟨o, s₁⟩
  rw [run_withAngled, hp] at hr
  cases hr
  exact h v s₁ hp

/-- A failed attempt leaves the state alone. -/
theorem Returns.attempt (h : Returns p s Q) :
    Returns (attempt p) s fun o s' => (o = none → s' = s) ∧ ∀ v ∈ o, Q v s' := by
  intro o s' hr
  rcases hp : p.run s with ⟨_ | v, s₁⟩
  · rw [run_attempt_none hp] at hr
    cases hr
    exact ⟨fun _ => rfl, nofun⟩
  · rw [run_attempt_some hp] at hr
    cases hr
    exact ⟨nofun, fun w hw => Option.some.inj hw ▸ h v s' hp⟩

end Values

theorem loop_run (step : β → Parser (Step β γ)) (v : β) (s : State) :
    (loop step v).run s = match (step v).run s with
      | (none, s') => (none, s')
      | (some (.done r), s') => (some r, s')
      | (some (.more v'), s') =>
        if s'.rest.length < s.rest.length then (loop step v').run s' else (none, s') := by
  change loopFrom step v s = _
  rw [loopFrom]
  rfl

/-- A loop keeps an invariant of the tokens taken so far, if each round does and takes a
token before it goes round again. -/
theorem Meets.loop {step : β → Parser (Step β γ)} {I : List Token → β → State → Prop}
    {Q : List Token → γ → State → Prop} {n : Nat}
    (hstep : ∀ ts v s, s.rest.length < n → I ts v s → Meets (step v) s fun us r s' =>
      match r with
      | .more v' => us ≠ [] ∧ I (ts ++ us) v' s'
      | .done c => Q (ts ++ us) c s')
    {ts : List Token} {v : β} {s : State} (hn : s.rest.length < n) (hi : I ts v s) :
    Meets (loop step v) s fun us c s' => Q (ts ++ us) c s' := by
  induction hk : s.rest.length using Nat.strongRecOn generalizing ts v s with
  | ind k ih =>
    obtain ⟨us, hu, h⟩ := hstep ts v s hn hi
    unfold Meets
    rw [loop_run]
    rcases hr : (step v).run s with ⟨_ | v' | c, s'⟩ <;> rw [hr] at hu h
    · exact ⟨us, hu, h⟩
    · obtain ⟨hf, hne, hi'⟩ := h
      have hlt := hu.length_lt hne
      obtain ⟨ws, hw, h⟩ := ih _ (hk ▸ hlt) (Nat.lt_trans hlt hn) hi' rfl
      simp only [hlt, if_true]
      refine ⟨us ++ ws, hu.trans hw, ?_⟩
      rw [← List.append_assoc, ← show s'.faults = s.faults from hf]
      exact h
    · exact ⟨us, hu, h⟩

/-- What a round says of the value it carries on, and of the result it stops with. -/
def Step.Says (I : β → Prop) (Q : γ → Prop) : Step β γ → Prop
  | .more v => I v
  | .done c => Q c

/-- A loop ends as its last round does, with an invariant that each round hands on. -/
theorem Returns.loop {step : β → Parser (Step β γ)} {I : β → State → Prop} {Q : γ → State → Prop}
    (hstep : ∀ v s, I v s → Returns (step v) s fun r s' => r.Says (I · s') (Q · s'))
    {v : β} {s : State} (hi : I v s) : Returns (loop step v) s Q := by
  intro c s' h
  induction hk : s.rest.length using Nat.strongRecOn generalizing v s with
  | ind k ih =>
    rw [loop_run] at h
    split at h
    next => cases h
    next hr =>
      cases h
      exact hstep v s hi _ _ hr
    next hr =>
      split at h
      next hlt => exact ih _ (hk ▸ hlt) (hstep v s hi _ _ hr) h rfl
      next => cases h

/-- A knot does what its body does, if the body does so in terms of nested parsers that
are known only below the number of tokens left. -/
theorem Meets.knot {body : (ι → Parser α) → ι → Parser α}
    {Q : ι → List Token → α → State → Prop}
    (hbody : ∀ n nested, (∀ j s, s.rest.length < n → Meets (nested j) s (Q j)) →
      ∀ i s, s.rest.length ≤ n → Meets (body nested i) s (Q i)) (i : ι) (s : State) :
    Meets (knot body i) s (Q i) := by
  change Meets ⟨knotFrom body i⟩ s (Q i)
  induction hk : s.rest.length using Nat.strongRecOn generalizing i s with
  | ind k ih =>
    unfold Meets
    simp only
    rw [knotFrom]
    refine hbody k _ ?_ i s (Nat.le_of_eq hk)
    intro j s' hlt
    have := ih _ hlt j s' rfl
    unfold Meets at this ⊢
    simpa only [hk, hlt, if_true] using this

/-- The state after one more token. -/
def State.past (s : State) (t : Token) (ts : List Token) : State :=
  { s with rest := ts, previous := some t, begun := true }

@[simp] theorem State.since_start (s : State) (start : Nat) : (s.since start).start = start := by
  unfold since
  split <;> rfl

/-- A range that ends behind its start ends with the last token. -/
theorem State.since_stop {s : State} {t : Token} {start : Nat} (h : s.previous = some t)
    (hle : start ≤ t.span.stop) : (s.since start).stop = t.span.stop := by
  simp [since, h, hle]

theorem State.took_past {s : State} {t : Token} {ts : List Token} (h : s.rest = t :: ts) :
    s.Took [t] (s.past t ts) :=
  ⟨h, rfl, by simp [past], rfl, rfl, rfl⟩

theorem run_next {s : State} {t : Token} {ts : List Token} (h : s.rest = t :: ts) :
    next.run s = (some t, s.past t ts) := by
  simp only [next, h, State.past]

theorem taken_of_next {s s' : State} {t : Token} (h : next.run s = (some t, s')) :
    ∃ us, s.rest = t :: us ∧ s' = s.past t us := by
  cases hr : s.rest with
  | nil => simp [next, hr] at h
  | cons u us =>
    rw [run_next hr] at h
    cases h
    exact ⟨us, rfl, rfl⟩

theorem run_skip_one {s : State} {t : Token} {ts : List Token} (h : s.rest = t :: ts) :
    (skip 1).run s = (some (), s.past t ts) := by
  simp only [skip, run_modifyState, State.drop, h, State.past]

section Taken
variable {s : State} {t : Token} {us : List Token} {Q : α → State → Prop}

theorem Returns.next {f : Token → Parser α} (hr : s.rest = t :: us)
    (h : Returns (f t) (s.past t us) Q) : Returns (next >>= f) s Q := by
  refine Returns.bind fun t' s' hn => ?_
  rw [run_next hr] at hn
  cases hn
  exact h

theorem Returns.skipOne {f : Unit → Parser α} (hr : s.rest = t :: us)
    (h : Returns (f ()) (s.past t us) Q) : Returns (skip 1 >>= f) s Q := by
  refine Returns.bind fun _ s' hs => ?_
  rw [run_skip_one hr] at hs
  cases hs
  exact h

end Taken

theorem run_skip_two {s : State} {t u : Token} {ts : List Token} (h : s.rest = t :: u :: ts) :
    (skip 2).run s = (some (), (s.past t (u :: ts)).past u ts) := by
  simp only [skip, run_modifyState, State.drop, h, State.past]

theorem State.took_drop {s : State} {us vs : List Token} (h : s.rest = us ++ vs) :
    s.Took us (s.drop us.length) ∧ (s.drop us.length).faults = s.faults := by
  induction us generalizing s with
  | nil => exact ⟨.refl s, rfl⟩
  | cons t us ih =>
    rw [List.length_cons, drop, h]
    obtain ⟨ht, hf⟩ := ih (s := s.past t (us ++ vs)) rfl
    exact ⟨(took_past h).trans ht, hf⟩

section Primitives
variable {s : State} {t : Token} {us : List Token}

theorem Meets.skipAll {vs : List Token} {Q : List Token → Unit → State → Prop}
    (h : s.rest = us ++ vs) (hq : ∀ s', s.Took us s' → Q us () s') :
    Meets (skip us.length) s Q :=
  ⟨us, (State.took_drop h).1, (State.took_drop h).2, hq _ (State.took_drop h).1⟩

theorem Meets.next {Q : List Token → Token → State → Prop} (h : s.rest = t :: us)
    (hq : Q [t] t (s.past t us)) : Meets next s Q := by
  unfold Meets
  rw [run_next h]
  exact ⟨[t], State.took_past h, rfl, hq⟩

theorem Meets.skipOne {Q : List Token → Unit → State → Prop} (h : s.rest = t :: us)
    (hq : Q [t] () (s.past t us)) : Meets (skip 1) s Q := by
  unfold Meets
  rw [run_skip_one h]
  exact ⟨[t], State.took_past h, rfl, hq⟩

theorem Meets.expected {α : Type} {d : String} {Q : List Token → α → State → Prop} :
    Meets (expected d) s Q :=
  ⟨[], ⟨rfl, rfl, by simp [Parser.expected, reportExpected, report, run_bind], rfl, rfl, rfl⟩,
    _, rfl⟩

/-- A fault and a failure. -/
theorem Meets.reportFail {α : Type} {f : Fault} {Q : List Token → α → State → Prop} :
    Meets (report f >>= fun _ => fail) s Q :=
  ⟨[], ⟨rfl, rfl, by simp [report, run_bind], rfl, rfl, rfl⟩, _, rfl⟩

theorem State.rest_of_isAt {k : TokenKind} (h : s.isAt k = true) :
    ∃ t us, s.rest = t :: us ∧ t.kind = k := by
  unfold isAt kind? at h
  cases hr : s.rest with
  | nil => simp [hr] at h
  | cons t us => exact ⟨t, us, rfl, by simpa [hr] using h⟩

theorem acceptAnywhere_returns (k : TokenKind) (s : State) :
    Returns (acceptAnywhere k) s fun b s' =>
      match b with
      | true => ∃ t us, s.rest = t :: us ∧ t.kind = k ∧ s' = s.past t us
      | false => s' = s := by
  refine Returns.look (Returns.ite (fun h => ?_) fun _ => .pure rfl)
  obtain ⟨t, us, hr, hk⟩ := State.rest_of_isAt h
  exact Returns.skipOne hr (.pure ⟨t, us, hr, hk, rfl⟩)

theorem State.rest_of_isAtOnLine {k : TokenKind} (h : s.isAtOnLine k = true) :
    ∃ t us, s.rest = t :: us ∧ t.kind = k ∧ t.lineStart = false := by
  simp only [isAtOnLine, Bool.and_eq_true] at h
  obtain ⟨t, us, hr, hk⟩ := rest_of_isAt h.2
  refine ⟨t, us, hr, hk, ?_⟩
  simpa [onLine, hr] using h.1

theorem accept_returns (k : TokenKind) (s : State) :
    Returns (accept k) s fun b s' =>
      match b with
      | true => ∃ t us, s.rest = t :: us ∧ t.kind = k ∧ t.lineStart = false ∧ s' = s.past t us
      | false => s' = s := by
  refine Returns.look (Returns.ite (fun h => ?_) fun _ => .pure rfl)
  obtain ⟨t, us, hr, hk, hl⟩ := State.rest_of_isAtOnLine h
  exact Returns.skipOne hr (.pure ⟨t, us, hr, hk, hl, rfl⟩)

theorem run_accept_true {k : TokenKind} (hr : s.rest = t :: us)
    (h : s.isAtOnLine k = true) : (accept k).run s = (some true, s.past t us) := by
  simp only [Parser.accept, run_bind, run_look, h, if_true, run_skip_one hr, run_pure]

theorem run_accept_false {k : TokenKind} (h : s.isAtOnLine k = false) :
    (accept k).run s = (some false, s) := by
  simp [Parser.accept, run_bind, h]

theorem run_require {k : TokenKind} {d : String} (hr : s.rest = t :: us)
    (h : s.isAtOnLine k = true) : (require k d).run s = (some t, s.past t us) := by
  simp only [Parser.require, run_bind, run_look, h, if_true, run_next hr]

/-- A token that was required is the one that stood next on the line. -/
theorem taken_of_require {k : TokenKind} {d : String} {s' : State}
    (h : (require k d).run s = (some t, s')) :
    ∃ us, s.rest = t :: us ∧ t.kind = k ∧ s' = s.past t us := by
  by_cases hc : s.isAtOnLine k = true
  · obtain ⟨u, us, hr, hk, -⟩ := State.rest_of_isAtOnLine hc
    rw [run_require hr hc] at h
    cases h
    exact ⟨us, hr, hk, rfl⟩
  · rw [require, run_bind_some (run_look s), if_neg hc] at h
    cases h

theorem Meets.acceptAnywhere {k : TokenKind} {Q : List Token → Bool → State → Prop}
    (ht : ∀ t us, s.rest = t :: us → t.kind = k → Q [t] true (s.past t us))
    (hf : s.isAt k = false → Q [] false s) : Meets (acceptAnywhere k) s Q := by
  refine Meets.look (Meets.ite (fun h => ?_) fun h => Meets.pure (hf (by simpa using h)))
  obtain ⟨t, us, hr, hk⟩ := State.rest_of_isAt h
  exact Meets.bind (Meets.skipOne hr (Meets.pure (ht t us hr hk)))

theorem Meets.accept {k : TokenKind} {Q : List Token → Bool → State → Prop}
    (ht : ∀ t us, s.rest = t :: us → t.kind = k → Q [t] true (s.past t us))
    (hf : s.isAtOnLine k = false → Q [] false s) : Meets (accept k) s Q := by
  refine Meets.look (Meets.ite (fun h => ?_) fun h => Meets.pure (hf (by simpa using h)))
  obtain ⟨t, us, hr, hk, _⟩ := State.rest_of_isAtOnLine h
  exact Meets.bind (Meets.skipOne hr (Meets.pure (ht t us hr hk)))

theorem Meets.require {k : TokenKind} {d : String} {Q : List Token → Token → State → Prop}
    (ht : ∀ t us, s.rest = t :: us → t.kind = k → Q [t] t (s.past t us)) :
    Meets (require k d) s Q := by
  refine Meets.look (Meets.ite (fun h => ?_) fun _ => Meets.expected)
  obtain ⟨t, us, hr, hk, _⟩ := State.rest_of_isAtOnLine h
  exact Meets.next hr (ht t us hr hk)

/-- Values with a comma between each two of them. -/
inductive Separated (P : List Token → α → Prop) : List Token → List α → Prop
  | one {ts : List Token} {v : α} : P ts v → Separated P ts [v]
  | more {ts us : List Token} {c : Token} {vs : List α} {v : α} : Separated P ts vs →
      c.kind = .symbol .comma → P us v → Separated P (ts ++ c :: us) (vs ++ [v])

/-- What an optional value after a comma takes. -/
inductive CommaThen (P : List Token → α → Prop) : List Token → Option α → Prop
  | absent : CommaThen P [] none
  | present {us : List Token} {c : Token} {v : α} : c.kind = .symbol .comma → P us v →
      CommaThen P (c :: us) (some v)

section Lists
variable {n : Nat} {p : Parser α} {P : List Token → α → Prop}

theorem Meets.afterComma (hp : ∀ s, s.rest.length < n → Meets p s fun ts v _ => P ts v)
    (hn : s.rest.length < n) : Meets (afterComma? p) s fun ts r _ => CommaThen P ts r := by
  refine Meets.bind (Meets.accept (fun t us hr hk => ?_) fun _ => Meets.pure .absent)
  have hlt : (s.past t us).rest.length < n := by
    rw [hr] at hn
    exact Nat.lt_of_succ_lt hn
  exact (hp _ hlt).andThen fun ts v _ _ h => Meets.pure (by simpa using .present hk h)

theorem Meets.commaList (hp : ∀ s, s.rest.length < n → Meets p s fun ts v _ => P ts v)
    (hn : s.rest.length < n) : Meets (commaList p) s fun ts vs _ => Separated P ts vs := by
  refine (hp s hn).andThen fun ts v s₁ h₁ hv => ?_
  refine Meets.loop (I := fun ts vs _ => Separated P ts vs)
    (Q := fun ts vs _ => Separated P ts vs) ?_ (Nat.lt_of_le_of_lt h₁.length_le hn) (.one hv)
  intro ts vs s hn hi
  refine Meets.bind (Meets.accept (fun t us hr hk => ?_) fun _ => Meets.pure (by simpa using hi))
  have hlt : (s.past t us).rest.length < n := by
    rw [hr] at hn
    exact Nat.lt_of_succ_lt hn
  refine (hp _ hlt).andThen fun us v _ _ hv => Meets.pure ⟨by simp, ?_⟩
  simpa using .more hi hk hv

end Lists
end Primitives

end PickSyntax.Parser
