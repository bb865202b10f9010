import PickSyntax.Proofs.Parser.Lockstep

/-!
# Parsers that agree

`Alike` says of two parsers that their runs from states that correspond agree. The rules
follow the combinators. Loops and knots carry the number of tokens left; a nested parser is
known to agree only below it.
-/
namespace PickSyntax.Parser.Seam

variable {α α' β β' γ γ' ι : Type} {m : Seam} {strict known : Bool} {n : Nat}

/-- The runs of two parsers agree, from states that correspond and have fewer than `n` tokens
left of the first list. -/
def Alike (m : Seam) (strict : Bool) (n : Nat) (p : Parser α) (q : Parser α')
    (R : α → α' → Prop) : Prop :=
  ∀ s S, s.rest.length < n → m.Lock true s S →
    m.Outcome strict true R (fun _ => False) s (p.run s) (q.run S)

/-- The first run ends too early: a fault is recorded, or the value says that one is due. -/
def EndsEarly (early : α → Prop) (p : Parser α) (s : State) : Prop :=
  s.faults.length < (p.run s).2.faults.length ∨ ∃ v, (p.run s).1 = some v ∧ early v

section Rules
variable {p : Parser α} {q : Parser α'} {f : α → Parser β} {g : α' → Parser β'}
variable {R R' : α → α' → Prop} {T : β → β' → Prop} {early : α → Prop} {late : β → Prop}
variable {s s' S S' : State}

theorem Outcome.loosen {r : Option α × State} {r' : Option α' × State}
    (h : m.Outcome true known R early s r r') : m.Outcome strict known R early s r r' := by
  cases h with
  | yield hv hl => exact .yield hv hl
  | fail hl hk hr => exact .fail hl hk hr
  | cutoff hc hf hs => exact .cutoff hc hf fun _ => hs rfl
  | early _ hst _ => cases hst

theorem Alike.loosen (h : m.Alike true n p q R) : m.Alike strict n p q R :=
  fun s S hs hl => (h s S hs hl).loosen

/-- An outcome seen from a state further back, after which a token has been taken. -/
theorem Outcome.back {r : Option α × State} {r' : Option α' × State}
    (h : m.Outcome strict true R early s' r r') (hf : s.faults.length ≤ s'.faults.length) :
    m.Outcome strict known R early s r r' := by
  cases h with
  | yield hv hl => exact .yield hv hl
  | @fail k _ _ hl hk _ => exact .fail (k := true) (hk rfl ▸ hl) (fun _ => rfl) nofun
  | cutoff hc hlt hs => exact .cutoff hc (Nat.lt_of_le_of_lt hf hlt) hs
  | early hc hst he => exact .early hc hst he

/-- An outcome seen from a state with as many tokens left. -/
theorem Outcome.over {r : Option α × State} {r' : Option α' × State}
    (h : m.Outcome strict known R early s' r r') (hf : s.faults.length ≤ s'.faults.length)
    (hr : s'.rest = s.rest) : m.Outcome strict known R early s r r' := by
  cases h with
  | yield hv hl => exact .yield hv hl
  | fail hl hk hlen => exact .fail hl hk fun hk => hr ▸ hlen hk
  | cutoff hc hlt hs => exact .cutoff hc (Nat.lt_of_le_of_lt hf hlt) hs
  | early hc hst he => exact .early hc hst he

theorem Beyond.mono (h : m.Beyond S) (hr : S'.rest.length ≤ S.rest.length) : m.Beyond S' :=
  Nat.lt_of_le_of_lt hr h

/-- One parser after another. The parsers behind it go on in any case, so that neither a
fault nor the tokens beyond the end are taken back. -/
theorem Outcome.bind [hp : Onward p] [hfo : ∀ v, Onward (f v)] [hgo : ∀ w, Onward (g w)]
    (h : m.Outcome strict known R early s (p.run s) (q.run S))
    (hf : ∀ v w s' S', p.run s = (some v, s') → R v w → m.Lock true s' S' →
      m.Outcome strict true T late s' ((f v).run s') ((g w).run S'))
    (he : ∀ v s', early v → EndsEarly late (f v) s') :
    m.Outcome strict known T late s ((p >>= f).run s) ((q >>= g).run S) := by
  have hle := hp.faults_le s
  generalize hr : p.run s = r, hr' : q.run S = r' at h hle
  cases h with
  | yield hv hl =>
    rw [run_bind_some hr, run_bind_some hr']
    exact (hf _ _ _ _ hr hv hl).back hle
  | fail hl hk hlen =>
    rw [run_bind_none hr, run_bind_none hr']
    exact .fail hl hk hlen
  | cutoff hc hlt hs =>
    obtain ⟨_ | v, s'⟩ := r
    · refine .cutoff hc (by rwa [run_bind_none hr]) fun hst => ⟨by rw [run_bind_none hr], ?_⟩
      obtain ⟨_ | w, S'⟩ := r'
      · exact .inl (by rw [run_bind_none hr'])
      · rw [run_bind_some hr']
        exact (hs hst).2.elim nofun fun hb => .inr (hb.mono ((hgo w).rest_le S'))
    · rw [run_bind_some hr]
      exact .cutoff hc (Nat.lt_of_lt_of_le hlt ((hfo v).faults_le s')) fun hst => nomatch (hs hst).1
  | @early v s' _ hc hst hv =>
    rw [run_bind_some hr]
    rcases he v s' hv with hlt | ⟨w, hw, hd⟩
    · exact .cutoff hc (Nat.lt_of_le_of_lt hle hlt) fun hst' => by simp [hst] at hst'
    · rw [show (f v).run s' = (some w, ((f v).run s').2) from Prod.ext hw rfl]
      exact .early hc hst hd

theorem Alike.bind [Onward p] [∀ v, Onward (f v)] [∀ w, Onward (g w)]
    (h : m.Alike strict n p q R) (hf : ∀ v w, R v w → m.Alike strict n (f v) (g w) T) :
    m.Alike strict n (p >>= f) (q >>= g) T := by
  intro s S hs hl
  refine (h s S hs hl).bind (fun v w s' S' hr hv hl' => ?_) nofun
  have hle := Onward.rest_le (p := p) s
  rw [hr] at hle
  exact hf v w hv s' S' (Nat.lt_of_le_of_lt hle hs) hl'

/-- The same for parsers that split on the value; no instance is found for these. -/
theorem Outcome.andThen [Onward p] (hfo : ∀ v, Onward (f v)) (hgo : ∀ w, Onward (g w))
    (h : m.Outcome strict known R early s (p.run s) (q.run S))
    (hf : ∀ v w s' S', p.run s = (some v, s') → R v w → m.Lock true s' S' →
      m.Outcome strict true T late s' ((f v).run s') ((g w).run S'))
    (he : ∀ v s', early v → EndsEarly late (f v) s') :
    m.Outcome strict known T late s ((p >>= f).run s) ((q >>= g).run S) :=
  h.bind hf he

theorem Alike.andThen [Onward p] (h : m.Alike strict n p q R) (hfo : ∀ v, Onward (f v))
    (hgo : ∀ w, Onward (g w)) (hf : ∀ v w, R v w → m.Alike strict n (f v) (g w) T) :
    m.Alike strict n (p >>= f) (q >>= g) T :=
  h.bind hf

theorem Outcome.look {f : State → Parser β} {g : State → Parser β'}
    (h : m.Outcome strict known T late s ((f s).run s) ((g S).run S)) :
    m.Outcome strict known T late s ((look >>= f).run s) ((look >>= g).run S) :=
  h

theorem Outcome.enclosing {f : List Block → Parser β} {g : List Block → Parser β'}
    (hl : m.Lock true s S)
    (h : ∀ outer, m.Outcome strict true T late s ((f outer).run s) ((g outer).run S)) :
    m.Outcome strict true T late s ((enclosing >>= f).run s) ((enclosing >>= g).run S) := by
  cases hb : s.blocks with
  | nil =>
    rw [run_bind_none (run_enclosing_nil hb), run_bind_none (run_enclosing_nil (hl.blocks ▸ hb))]
    exact .fail hl (fun _ => rfl) nofun
  | cons b outer =>
    rw [run_bind_some (run_enclosing hb), run_bind_some (run_enclosing (hl.blocks ▸ hb))]
    exact h outer

theorem Outcome.pure {v : α} {w : α'} (hl : m.Lock true s S) (h : R v w) :
    m.Outcome strict known R early s ((pure v : Parser α).run s) ((pure w : Parser α').run S) :=
  .yield h hl

theorem Alike.pure {v : α} {w : α'} (h : R v w) : m.Alike strict n (pure v) (pure w) R :=
  fun _ _ _ hl => .yield h hl

theorem Alike.fail : m.Alike strict n (fail : Parser α) (fail : Parser α') R :=
  fun _ _ _ hl => .fail hl (fun _ => rfl) nofun

/-- A question that has the same answer in both states. -/
theorem Outcome.ite {c d : Bool} {p' : Parser α} {q' : Parser α'} (hc : c = d)
    (ht : c = true → m.Outcome strict known R early s (p.run s) (q.run S))
    (he : c = false → m.Outcome strict known R early s (p'.run s) (q'.run S)) :
    m.Outcome strict known R early s ((if c then p else p').run s)
      ((if d then q else q').run S) := by
  subst hc
  cases c with
  | true => exact ht rfl
  | false => exact he rfl

theorem Alike.ite {c d : Bool} {p' : Parser α} {q' : Parser α'} (hc : c = d)
    (ht : m.Alike strict n p q R) (he : m.Alike strict n p' q' R) :
    m.Alike strict n (if c then p else p') (if d then q else q') R :=
  fun s S hs hl => .ite hc (fun _ => ht s S hs hl) fun _ => he s S hs hl

/-- A failure is caught, and both parsers go on behind it. The flags of the token next may
still be open then, if nothing has been taken. -/
theorem Outcome.catchFailure {f : Option α → Parser β} {g : Option α' → Parser β'}
    [hp : Onward p] (hfo : ∀ v, Onward (f v))
    (h : m.Outcome false known R (fun _ => False) s (p.run s) (q.run S))
    (hsome : ∀ v w s' S', p.run s = (some v, s') → R v w → m.Lock true s' S' →
      m.Outcome false true T late s' ((f (some v)).run s') ((g (some w)).run S'))
    (hnone : ∀ k s' S', m.Lock k s' S' → (known = true → k = true) →
      (k = false → s'.rest.length = s.rest.length) →
      m.Outcome false true T late s' ((f none).run s') ((g none).run S')) :
    m.Outcome false known T late s ((catchFailure p >>= f).run s)
      ((catchFailure q >>= g).run S) := by
  have hle := hp.faults_le s
  rw [run_bind_some (run_catchFailure p s), run_bind_some (run_catchFailure q S)]
  generalize hr : p.run s = r, q.run S = r' at h hle ⊢
  cases h with
  | yield hv hl => exact (hsome _ _ _ _ hr hv hl).back hle
  | fail hl hk hlen => exact (hnone _ _ _ hl hk hlen).back hle
  | cutoff hc hlt _ =>
    exact .cutoff hc (Nat.lt_of_lt_of_le hlt ((hfo r.1).faults_le r.2)) nofun
  | early _ _ he => exact he.elim

/-- An attempt fails in both runs or in neither: the first run has to fail where the tokens
end, and the second one does not close what it attempts beyond them. -/
theorem Outcome.attempt [Located α] {p q : Parser α} (hl : m.Lock true s S)
    (h : m.Outcome true true m.Same (fun _ => False) s (p.run s) (q.run S))
    (hb : ∀ w S', q.run S = (some w, S') → ¬m.Beyond S') :
    ∃ v w s' S', (attempt p).run s = (some v, s') ∧ (attempt q).run S = (some w, S') ∧
      m.Same v w ∧ m.Lock true s' S' := by
  generalize hr : p.run s = r, hr' : q.run S = r' at h
  cases h with
  | yield hv hl' =>
    exact ⟨_, _, _, _, run_attempt_some hr, run_attempt_some hr', congrArg some hv, hl'⟩
  | fail => exact ⟨_, _, _, _, run_attempt_none hr, run_attempt_none hr', rfl, hl⟩
  | cutoff _ _ hs =>
    obtain ⟨_ | _, s'⟩ := r
    · obtain ⟨_ | w, S'⟩ := r'
      · exact ⟨_, _, _, _, run_attempt_none hr, run_attempt_none hr', rfl, hl⟩
      · exact absurd ((hs rfl).2.resolve_left nofun) (hb w S' hr')
    · cases (hs rfl).1
  | early _ _ he => exact he.elim

theorem Lock.setAngled (h : m.Lock known s S) (b : Bool) :
    m.Lock known { s with angled := b } { S with angled := b } :=
  ⟨h.rest, h.previous, h.fresh, h.begun, h.blocks, rfl, h.comments, h.faults, h.suffix⟩

theorem Lock.setBlocks (h : m.Lock known s S) {bs bs' : List Block} (hb : bs = bs') :
    m.Lock known { s with blocks := bs } { S with blocks := bs' } :=
  ⟨h.rest, h.previous, h.fresh, h.begun, hb, h.angled, h.comments, h.faults, h.suffix⟩

theorem Outcome.withAngled {b : Bool} (hl : m.Lock true s S)
    (h : m.Outcome strict true R early { s with angled := b } (p.run { s with angled := b })
      (q.run { S with angled := b })) :
    m.Outcome strict true R early s ((withAngled b p).run s) ((withAngled b q).run S) := by
  rw [run_withAngled, run_withAngled, ← hl.angled]
  generalize p.run { s with angled := b } = r, q.run { S with angled := b } = r' at h ⊢
  cases h with
  | yield hv hl' => exact .yield hv (hl'.setAngled _)
  | fail hl' hk hlen => exact .fail (hl'.setAngled _) hk hlen
  | cutoff hc hlt hst => exact .cutoff hc hlt hst
  | early hc hst he => exact .early hc hst he

theorem Alike.withAngled {b : Bool} (h : m.Alike strict n p q R) :
    m.Alike strict n (withAngled b p) (withAngled b q) R :=
  fun s _ hs hl => .withAngled hl (h { s with angled := b } _ hs (hl.setAngled b))

theorem Outcome.inBlock {b : Block}
    (h : m.Outcome strict true R early { s with blocks := b :: s.blocks }
      (p.run { s with blocks := b :: s.blocks }) (q.run { S with blocks := b :: S.blocks })) :
    m.Outcome strict true R early s ((inBlock b p).run s) ((inBlock b q).run S) := by
  rw [run_inBlock, run_inBlock]
  generalize p.run { s with blocks := b :: s.blocks } = r,
    q.run { S with blocks := b :: S.blocks } = r' at h ⊢
  cases h with
  | yield hv hl' => exact .yield hv (hl'.setBlocks (congrArg List.tail hl'.blocks))
  | fail hl' hk hlen => exact .fail (hl'.setBlocks (congrArg List.tail hl'.blocks)) hk hlen
  | cutoff hc hlt hst => exact .cutoff hc hlt hst
  | early hc hst he => exact .early hc hst he

end Rules

/-- What two rounds have to say of each other. -/
def Step.Like (I : β → β' → Prop) (R : γ → γ' → Prop) : Step β γ → Step β' γ' → Prop
  | .more v, .more w => I v w
  | .done c, .done d => R c d
  | _, _ => False

section Recursion
variable {step : β → Parser (Step β γ)} {step' : β' → Parser (Step β' γ')}
variable {I : β → β' → Prop} {R : γ → γ' → Prop} {early : γ → Prop}

/-- What a loop does after a round that began with `n` tokens left. -/
def goRound (step : β → Parser (Step β γ)) (n : Nat) : Step β γ → Parser γ
  | .more v => below n (loop step v)
  | .done c => pure c

theorem loop_eq_goRound (step : β → Parser (Step β γ)) (v : β) (s : State) :
    (loop step v).run s = (step v >>= goRound step s.rest.length).run s := by
  rw [loop_run, run_bind]
  rcases (step v).run s with ⟨_ | _ | _, _⟩ <;> rfl

instance goRound_onward [∀ v, Onward (step v)] (n : Nat) (r : Step β γ) :
    Onward (goRound step n r) := by
  cases r <;> (unfold goRound; infer_instance)

/-- Two loops agree if their rounds do. -/
theorem Outcome.loop [∀ v, Onward (step v)] [∀ w, Onward (step' w)]
    (hstep : ∀ v w s S, s.rest.length < n → I v w → m.Lock true s S →
      m.Outcome strict true (Step.Like I R) (Step.Says (fun _ => False) early) s
        ((step v).run s) ((step' w).run S))
    {v : β} {w : β'} {s S : State} (hs : s.rest.length < n) (hv : I v w) (hl : m.Lock true s S) :
    m.Outcome strict true R early s ((loop step v).run s) ((loop step' w).run S) := by
  induction hk : s.rest.length using Nat.strongRecOn generalizing v w s S with
  | ind k ih =>
    rw [loop_eq_goRound, loop_eq_goRound]
    refine (hstep v w s S hs hv hl).bind (fun r r' s' S' _ hr hl' => ?_) fun r s' he => ?_
    · cases r with
      | done c =>
        cases r' with
        | done d => exact .yield hr hl'
        | more => exact hr.elim
      | more v' =>
        cases r' with
        | done => exact hr.elim
        | more w' =>
          simp only [goRound, below, hl'.length, hl.length, Nat.add_lt_add_iff_right]
          split
          next hlt => exact ih _ (hk ▸ hlt) (Nat.lt_trans hlt hs) hr hl' rfl
          next => exact .fail hl' (fun _ => rfl) nofun
    · cases r with
      | more => exact he.elim
      | done c => exact .inr ⟨c, rfl, he⟩

theorem Alike.loop [∀ v, Onward (step v)] [∀ w, Onward (step' w)]
    (hstep : ∀ v w, I v w → m.Alike strict n (step v) (step' w) (Step.Like I R)) {v : β} {w : β'}
    (hv : I v w) : m.Alike strict n (loop step v) (loop step' w) R := by
  intro s S hs hl
  refine Outcome.loop (I := I) (fun v w s S hs hv hl => ?_) hs hv hl
  have h := hstep v w hv s S hs hl
  generalize (step v).run s = r, (step' w).run S = r' at h ⊢
  cases h with
  | yield hv hl => exact .yield hv hl
  | fail hl hk hr => exact .fail hl hk hr
  | cutoff hc hf hs => exact .cutoff hc hf hs
  | early _ _ he => exact he.elim

/-- A knot agrees with itself if its body does, in terms of nested parsers that agree once a
token has been taken. -/
theorem Outcome.knot {body : (ι → Parser α) → ι → Parser α} {R : α → α → Prop}
    (hon : ∀ nested, (∀ i, Onward (nested i)) → ∀ i, Onward (body nested i))
    (hbody : ∀ n nested nested', (∀ i, Onward (nested i)) → (∀ i, Onward (nested' i)) →
      (∀ i s, s.rest.length < n → (nested i).run s = (knot body i).run s) →
      (∀ i s, s.rest.length < n + m.tail.length → (nested' i).run s = (knot body i).run s) →
      (∀ i, m.Alike strict n (nested i) (nested' i) R) →
      ∀ known i s S, s.rest.length ≤ n → m.Lock known s S →
        m.Outcome strict known R (fun _ => False) s ((body nested i).run s)
          ((body nested' i).run S))
    (i : ι) {s S : State} (hl : m.Lock known s S) :
    m.Outcome strict known R (fun _ => False) s ((knot body i).run s) ((knot body i).run S) := by
  have hk (j : ι) : Onward (Parser.knot body j) := Onward.knot hon j
  induction hn : s.rest.length using Nat.strongRecOn generalizing known i s S with
  | ind k ih =>
    rw [knot_run, knot_run]
    refine hbody k _ _ (fun _ => inferInstance) (fun _ => inferInstance) (fun j s' hlt => ?_)
      (fun j s' hlt => ?_) (fun j s' S' hlt hl' => ?_) known i s S (Nat.le_of_eq hn) hl
    · simp only [below, hn, hlt, if_true]
    · simp only [below, hl.length, hn, hlt, if_true]
    · simp only [below, hl.length, hl'.length, hn, Nat.add_lt_add_iff_right, hlt, if_true]
      exact ih _ hlt j hl' rfl

end Recursion

section Primitives
variable {R : α → α' → Prop} {early : α → Prop} {p q : Parser α} {s S : State}

/-- The next token is taken in both runs. -/
theorem Outcome.next {f : Token → Parser α} {g : Token → Parser α'} {t : Token} {ts : List Token}
    (hl : m.Lock known s S) (hr : s.rest = t :: ts)
    (h : ∀ u us, S.rest = u :: us → m.Like t u → (known = true → SameLayout t u) →
      m.Lock true (s.past t ts) (S.past u us) →
      m.Outcome strict true R early (s.past t ts) ((f t).run (s.past t ts))
        ((g u).run (S.past u us))) :
    m.Outcome strict known R early s ((Parser.next >>= f).run s) ((Parser.next >>= g).run S) := by
  obtain ⟨u, us, hR, hlike, hk, hp⟩ := hl.front hr
  rw [run_bind_some (run_next hr), run_bind_some (run_next hR)]
  exact (h u us hR hlike hk hp).back (Nat.le_refl _)

theorem Outcome.skipOne {f : Unit → Parser α} {g : Unit → Parser α'} {t : Token} {ts : List Token}
    (hl : m.Lock known s S) (hr : s.rest = t :: ts)
    (h : ∀ u us, S.rest = u :: us → m.Like t u → (known = true → SameLayout t u) →
      m.Lock true (s.past t ts) (S.past u us) →
      m.Outcome strict true R early (s.past t ts) ((f ()).run (s.past t ts))
        ((g ()).run (S.past u us))) :
    m.Outcome strict known R early s ((skip 1 >>= f).run s) ((skip 1 >>= g).run S) := by
  obtain ⟨u, us, hR, hlike, hk, hp⟩ := hl.front hr
  rw [run_bind_some (run_skip_one hr), run_bind_some (run_skip_one hR)]
  exact (h u us hR hlike hk hp).back (Nat.le_refl _)

theorem Lock.drop (hl : m.Lock known s S) {width : Nat} (hw : 0 < width)
    (hr : width ≤ s.rest.length) : m.Lock true (s.drop width) (S.drop width) := by
  induction width generalizing known s S with
  | zero => cases hw
  | succ width ih =>
    obtain ⟨t, ts, hs⟩ := List.exists_cons_of_length_pos (Nat.lt_of_lt_of_le hw hr)
    obtain ⟨u, us, hS, -, -, hp⟩ := hl.front hs
    simp only [State.drop, hs, hS]
    cases width with
    | zero => exact hp
    | succ width => exact ih hp (Nat.succ_pos _) (by rw [hs] at hr; exact Nat.le_of_succ_le_succ hr)

theorem Outcome.skip {f : Unit → Parser α} {g : Unit → Parser α'} {width : Nat}
    (hl : m.Lock known s S) (hw : 0 < width) (hr : width ≤ s.rest.length)
    (h : ∀ s' S', s'.rest.length < s.rest.length → m.Lock true s' S' →
      m.Outcome strict true R early s' ((f ()).run s') ((g ()).run S')) :
    m.Outcome strict known R early s ((skip width >>= f).run s) ((skip width >>= g).run S) := by
  rw [run_bind_some (show (Parser.skip width).run s = (some (), s.drop width) from rfl),
    run_bind_some (show (Parser.skip width).run S = (some (), S.drop width) from rfl)]
  refine (h _ _ ?_ (hl.drop hw hr)).back
    (Nat.le_of_eq (congrArg List.length (State.drop_faults ..).symm))
  rw [State.drop_rest, List.length_drop]
  omega

theorem Lock.addFault (hl : m.Lock known s S) {f g : Fault} (h : m.Same f g) :
    m.Lock known { s with faults := s.faults ++ [f] } { S with faults := S.faults ++ [g] } := by
  refine ⟨hl.rest, hl.previous, hl.fresh, hl.begun, hl.blocks, hl.angled, hl.comments, ?_, hl.suffix⟩
  have hf := hl.faults
  simp only [Same, relocate, List.map_append, List.map_cons, List.map_nil] at hf h ⊢
  rw [hf, h]

theorem Alike.report {f g : Fault} (h : m.Same f g) : m.Alike strict n (report f) (report g) Eq :=
  fun _ _ _ hl => .yield rfl (hl.addFault h)

/-- A fault is recorded, whatever follows. -/
theorem EndsEarly.report {α : Type} {early : α → Prop} {f : Fault} {g : Unit → Parser α}
    [hg : Onward (g ())] : EndsEarly early (Parser.report f >>= g) s := by
  have := hg.faults_le { s with faults := s.faults ++ [f] }
  rw [List.length_append] at this
  exact .inl this

/-- Both runs record what they find and fail, unless the first one has ended too early. -/
theorem Outcome.expected {d : String} (hl : m.Lock known s S) :
    m.Outcome strict known R early s ((expected d : Parser α).run s)
      ((expected d : Parser α').run S) := by
  by_cases hc : m.cut ∧ s.rest = []
  · exact .cutoff hc.1 (by simp [Parser.expected, reportExpected, Parser.report, run_bind])
      fun _ => ⟨rfl, .inl rfl⟩
  · exact .fail (hl.addFault (hl.unexpected (not_and.mp hc) d)) id fun _ => rfl

/-- Where the first list has ended, a parser that takes a token and keeps to one statement
fails. The other one fails, too, or goes on beyond the end. -/
theorem Outcome.atEnd {p : Parser α} {q : Parser α'} {P : List Token → α → State → Prop}
    {Q : List Token → α' → State → Prop} (hl : m.Lock known s S) (hc : m.cut) (hr : s.rest = [])
    (hp : Meets p s P) (hP : ∀ ts v s', P ts v s' → ts ≠ [])
    (hq : Meets q S Q) (hQ : ∀ ts v s', Q ts v s' → ts ≠ []) :
    m.Outcome strict known R early s (p.run s) (q.run S) := by
  obtain ⟨ts, ht, hp⟩ := hp
  have hts : ts = [] := (List.append_eq_nil_iff.mp (ht.rest.symm.trans hr)).1
  generalize p.run s = r at ht hp ⊢
  obtain ⟨_ | v, s'⟩ := r
  · obtain ⟨f, hf⟩ := hp
    have hf : s'.faults = s.faults ++ [f] := hf
    refine .cutoff hc (by simp [hf]) fun _ => ⟨rfl, ?_⟩
    obtain ⟨us, hu, hq⟩ := hq
    generalize q.run S = r' at hu hq ⊢
    obtain ⟨_ | w, S'⟩ := r'
    · exact .inl rfl
    · have := hu.length_lt (hQ us w S' hq.2)
      exact .inr (by rwa [hl.nil hr] at this)
  · exact absurd hts (hP ts v s' hp.2)

theorem Alike.expected {d : String} :
    m.Alike strict n (expected d : Parser α) (expected d : Parser α') R :=
  fun _ _ _ hl => Outcome.expected hl

/-- Behind a fault that both runs record. -/
theorem Outcome.report {f : Unit → Parser α} {g : Unit → Parser α'} {d e : Fault}
    (hl : m.Lock known s S) (hd : m.Same d e)
    (h : ∀ s' S', s'.rest = s.rest → m.Lock known s' S' →
      m.Outcome strict known R early s' ((f ()).run s') ((g ()).run S')) :
    m.Outcome strict known R early s ((report d >>= f).run s) ((report e >>= g).run S) := by
  have hrun (d : Fault) (s : State) : (Parser.report d).run s =
    (some (), { s with faults := s.faults ++ [d] }) := rfl
  rw [run_bind_some (hrun d s), run_bind_some (hrun e S)]
  refine (h _ _ ?_ (hl.addFault hd)).over ?_ rfl
  · rfl
  · simp

/-- Behind this a caller only has to look at the case that the first list goes on. -/
theorem Outcome.reportExpected {f : Unit → Parser α} {g : Unit → Parser α'} {d : String}
    [hfo : ∀ v, Onward (f v)] (hl : m.Lock known s S)
    (h : ∀ s' S', s'.rest = s.rest → m.Lock known s' S' →
      m.Outcome false known R early s' ((f ()).run s') ((g ()).run S')) :
    m.Outcome false known R early s ((reportExpected d >>= f).run s)
      ((reportExpected d >>= g).run S) := by
  by_cases hc : m.cut ∧ s.rest = []
  · refine .cutoff hc.1 (Onward.lt_bind ?_) nofun
    simp [Parser.reportExpected, Parser.report, run_bind]
  · exact .report hl (hl.unexpected (not_and.mp hc) d) h

theorem Alike.accept {k : TokenKind} (hk : k ≠ .symbol .semicolon) :
    m.Alike strict n (accept k) (accept k) Eq := by
  intro s S _ hl
  refine .ite (hl.isAtOnLine hk) (fun h => ?_) fun _ => .pure hl rfl
  obtain ⟨t, ts, hr, -, -⟩ := State.rest_of_isAtOnLine h
  exact .skipOne hl hr fun _ _ _ _ _ hp => .pure hp rfl

/-- A choice by a token on whatever line it stands, where the first list has not ended too
early. -/
theorem Outcome.ifAnywhere {k : TokenKind} {p p' : Parser α} {q q' : Parser α'}
    (hl : m.Lock known s S) (hr : m.cut → s.rest ≠ [])
    (ht : ∀ s' S', s'.rest.length < s.rest.length → m.Lock true s' S' →
      m.Outcome strict true R early s' (p.run s') (q.run S'))
    (he : s.isAt k = false → m.Outcome strict known R early s (p'.run s) (q'.run S)) :
    m.Outcome strict known R early s ((do if ← acceptAnywhere k then p else p').run s)
      ((do if ← acceptAnywhere k then q else q').run S) := by
  have hat := hl.isAt hr k
  cases hk : s.isAt k with
  | true =>
    obtain ⟨t, ts, hs, -⟩ := State.rest_of_isAt hk
    obtain ⟨u, us, hS, -, -, hp⟩ := hl.front hs
    have hrun : (acceptAnywhere k).run s = (some true, s.past t ts) := by
      simp only [acceptAnywhere, run_bind, run_look, hk, if_true, run_skip_one hs, run_pure]
    have hrun' : (acceptAnywhere k).run S = (some true, S.past u us) := by
      simp only [acceptAnywhere, run_bind, run_look, ← hat, hk, if_true, run_skip_one hS, run_pure]
    rw [run_bind_some hrun, run_bind_some hrun']
    exact (ht _ _ (by simp [hs, State.past]) hp).back (Nat.le_refl _)
  | false =>
    have hrun : (acceptAnywhere k).run s = (some false, s) := by
      simp [acceptAnywhere, run_bind, hk]
    have hrun' : (acceptAnywhere k).run S = (some false, S) := by
      simp [acceptAnywhere, run_bind, ← hat, hk]
    rw [run_bind_some hrun, run_bind_some hrun']
    exact he hk

theorem Alike.require {k : TokenKind} {d : String} (hk : k ≠ .symbol .semicolon) :
    m.Alike strict n (require k d) (require k d) m.Like := by
  intro s S _ hl
  refine .ite (hl.isAtOnLine hk) (fun h => ?_) fun _ => .expected hl
  obtain ⟨t, ts, hr, -, -⟩ := State.rest_of_isAtOnLine h
  obtain ⟨u, us, hR, hlike, -, hp⟩ := hl.front hr
  rw [run_next hr, run_next hR]
  exact .yield hlike hp

theorem Alike.acceptSymbol {y : Symbol} (hy : y ≠ .semicolon) :
    m.Alike strict n (acceptSymbol y) (acceptSymbol y) Eq :=
  Alike.accept (by simpa using hy)

theorem Alike.acceptKeyword {k : Keyword} :
    m.Alike strict n (acceptKeyword k) (acceptKeyword k) Eq :=
  Alike.accept nofun

theorem Alike.requireSymbol {y : Symbol} (hy : y ≠ .semicolon) :
    m.Alike strict n (requireSymbol y) (requireSymbol y) m.Like :=
  Alike.require (by simpa using hy)

theorem Alike.requireKeyword {k : Keyword} :
    m.Alike strict n (requireKeyword k) (requireKeyword k) m.Like :=
  Alike.require nofun

theorem Alike.name {d : String} : m.Alike strict n (name d) (name d) m.Same := by
  intro s S _ hl
  refine .ite hl.nameNext (fun h => ?_) fun _ => .expected hl
  cases hr : s.rest with
  | nil => simp [State.nameNext, hr] at h
  | cons t ts => exact .next hl hr fun _ _ _ hlike _ hp => .pure hp hlike.text

theorem Same.none [Located α] : m.Same (none : Option α) none := rfl

theorem Same.some [Located α] {v w : α} (h : m.Same v w) : m.Same (some v) (some w) :=
  congrArg Option.some h

/-- Values are there in both runs or in neither. -/
theorem Same.option [Located α] {o o' : Option α} (h : m.Same o o') :
    (o = Option.none ∧ o' = Option.none) ∨
      ∃ v w, o = Option.some v ∧ o' = Option.some w ∧ m.Same v w := by
  cases o with
  | none =>
    cases o' with
    | none => exact .inl ⟨rfl, rfl⟩
    | some w => cases h
  | some v =>
    cases o' with
    | none => cases h
    | some w => exact .inr ⟨v, w, rfl, rfl, Option.some.inj h⟩

theorem Same.nil [Located α] : m.Same ([] : List α) [] := rfl

theorem Same.cons [Located α] {v w : α} {vs ws : List α} (h : m.Same v w) (hs : m.Same vs ws) :
    m.Same (v :: vs) (w :: ws) := by
  simp_all [Same, relocate]

theorem Same.append [Located α] {vs vs' ws ws' : List α} (h : m.Same vs ws)
    (h' : m.Same vs' ws') : m.Same (vs ++ vs') (ws ++ ws') := by
  simp_all [Same, relocate]

section Optional
variable [Located α] [Onward p] [Onward q]

theorem Alike.afterKeyword? {k : Keyword} (h : m.Alike strict n p q m.Same) :
    m.Alike strict n (afterKeyword? k p) (afterKeyword? k q) m.Same :=
  Alike.acceptKeyword.bind fun _ _ hb => .ite hb (h.bind fun _ _ hv => .pure (.some hv)) (.pure .none)

theorem Alike.afterComma? (h : m.Alike strict n p q m.Same) :
    m.Alike strict n (afterComma? p) (afterComma? q) m.Same :=
  (Alike.acceptSymbol (y := .comma) nofun).bind fun _ _ hb => .ite hb
    (h.bind fun _ _ hv => .pure (.some hv)) (.pure .none)

theorem Alike.commaList (h : m.Alike strict n p q m.Same) :
    m.Alike strict n (commaList p) (commaList q) m.Same := by
  unfold Parser.commaList commaStep
  refine h.bind fun v w hv => Alike.loop (I := m.Same) (fun vs ws hvs => ?_) (.cons hv .nil)
  refine (Alike.acceptSymbol (y := .comma) nofun).bind fun _ _ hb => .ite hb ?_ (.pure hvs)
  exact h.bind fun v w hv => .pure (hvs.append (.cons hv .nil))

end Optional

end Primitives
end PickSyntax.Parser.Seam
