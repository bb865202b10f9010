import PickSyntax.Proofs.Parser.Outcome

/-!
# Parsers that succeed

`Records` is the total counterpart of `Meets`. It says of one run that it succeeds, that it takes
exactly the tokens named, and that it records exactly the faults named, in the order of finding;
the predicate is about the value alone, since the state that is left follows from the tokens
taken. `Gives` is the same for a run that records nothing. The rules follow the combinators in
the order in which a parser uses them.
-/
namespace PickSyntax.Parser

variable {α β γ : Type}

/-- The run of `p` from `s` takes exactly the tokens `ts`, records the faults `fs` and yields a
value as `Q` says. -/
def Records (p : Parser α) (s : State) (ts : List Token) (fs : List Fault) (Q : α → Prop) : Prop :=
  ∃ v s', p.run s = (some v, s') ∧ s.Took ts s' ∧ s'.faults = s.faults ++ fs ∧ Q v

/-- The run of `p` from `s` takes exactly the tokens `ts`, records nothing and yields a value
as `Q` says. -/
def Gives (p : Parser α) (s : State) (ts : List Token) (Q : α → Prop) : Prop :=
  ∃ v s', p.run s = (some v, s') ∧ s.Took ts s' ∧ s'.faults = s.faults ∧ Q v

theorem State.Took.rest_eq {s s' : State} {ts us : List Token} (h : s.Took ts s')
    (hr : s.rest = ts ++ us) : s'.rest = us :=
  (List.append_cancel_left (hr.symm.trans h.rest)).symm

theorem State.Took.rest_one {s s' : State} {t : Token} {us : List Token} (h : s.Took [t] s')
    (hr : s.rest = t :: us) : s'.rest = us :=
  h.rest_eq (by rw [hr, List.singleton_append])

section Records
variable {p : Parser α} {f : α → Parser β} {s : State} {ts us : List Token} {fs gs : List Fault}
variable {Q Q' : α → Prop} {R : β → Prop}

theorem gives_iff_records : Gives p s ts Q ↔ Records p s ts [] Q := by
  simp [Gives, Records]

theorem Gives.records (h : Gives p s ts Q) : Records p s ts [] Q := gives_iff_records.mp h

theorem Records.mono (h : Records p s ts fs Q) (hq : ∀ v, Q v → Q' v) : Records p s ts fs Q' := by
  obtain ⟨v, s', hrun, ht, hf, hv⟩ := h
  exact ⟨v, s', hrun, ht, hf, hq v hv⟩

theorem Records.of_run {q : Parser α} (h : p.run s = q.run s) (hq : Records q s ts fs Q) :
    Records p s ts fs Q := by
  unfold Records
  rw [h]
  exact hq

theorem Records.bind (h : Records p s ts fs Q)
    (hf : ∀ v s', s.Took ts s' → Q v → Records (f v) s' us gs R) :
    Records (p >>= f) s (ts ++ us) (fs ++ gs) R := by
  obtain ⟨v, s', hrun, ht, hfault, hv⟩ := h
  obtain ⟨w, s'', hrun', ht', hfault', hw⟩ := hf v s' ht hv
  exact ⟨w, s'', (run_bind_some hrun f).trans hrun', ht.trans ht',
    by rw [hfault', hfault, List.append_assoc], hw⟩

/-- What comes after takes no token. -/
theorem Records.bind_nil (h : Records p s ts fs Q)
    (hf : ∀ v s', s.Took ts s' → Q v → Records (f v) s' [] gs R) :
    Records (p >>= f) s ts (fs ++ gs) R := by
  simpa using h.bind hf

/-- Only the value is changed after. -/
theorem Records.map {g : α → β} (h : Records p s ts fs Q) (hg : ∀ v, Q v → R (g v)) :
    Records (p >>= fun v => Pure.pure (g v)) s ts fs R := by
  obtain ⟨v, s', hrun, ht, hfault, hv⟩ := h
  exact ⟨g v, s', run_bind_some hrun _, ht, hfault, hg v hv⟩

/-- Only what comes after records anything. -/
theorem Gives.bind_records (h : Gives p s ts Q)
    (hf : ∀ v s', s.Took ts s' → Q v → Records (f v) s' us fs R) :
    Records (p >>= f) s (ts ++ us) fs R :=
  h.records.bind hf

/-- What comes after records nothing. -/
theorem Records.bind_gives (h : Records p s ts fs Q)
    (hf : ∀ v s', s.Took ts s' → Q v → Gives (f v) s' us R) :
    Records (p >>= f) s (ts ++ us) fs R := by
  simpa using h.bind fun v s' ht hv => (hf v s' ht hv).records

theorem Records.look {f : State → Parser β} (h : Records (f s) s ts fs R) :
    Records (look >>= f) s ts fs R := h

theorem Records.report (fault : Fault) : Records (report fault) s [] [fault] fun _ => True :=
  ⟨(), _, rfl, ⟨rfl, by simp, by simp, rfl, rfl, rfl⟩, rfl, trivial⟩

theorem Records.inBlock {b : Block} (h : Records p { s with blocks := b :: s.blocks } ts fs Q) :
    Records (inBlock b p) s ts fs Q := by
  obtain ⟨v, s', hrun, ht, hf, hv⟩ := h
  refine ⟨v, { s' with blocks := s'.blocks.tail }, ?_, ?_, hf, hv⟩
  · rw [run_inBlock, hrun]
  · exact ⟨ht.rest, ht.previous, ht.begun, ht.comments, congrArg List.tail ht.blocks, ht.angled⟩

/-- The last round of a loop. -/
theorem Records.done {step : α → Parser (Step α β)} {v : α}
    (h : Records (step v) s ts fs fun r => ∃ w, r = .done w ∧ R w) :
    Records (loop step v) s ts fs R := by
  obtain ⟨_, s', hrun, ht, hf, w, rfl, hw⟩ := h
  refine ⟨w, s', ?_, ht, hf, hw⟩
  rw [loop_run, hrun]

end Records

section Gives
variable {p : Parser α} {f : α → Parser β} {s : State} {ts us rest : List Token} {t : Token}
variable {Q Q' : α → Prop} {R : β → Prop}

theorem Gives.mono (h : Gives p s ts Q) (hq : ∀ v, Q v → Q' v) : Gives p s ts Q' :=
  gives_iff_records.mpr (h.records.mono hq)

theorem Gives.of_run {q : Parser α} (h : p.run s = q.run s) (hq : Gives q s ts Q) :
    Gives p s ts Q :=
  gives_iff_records.mpr (.of_run h hq.records)

theorem Gives.pure {v : α} (h : Q v) : Gives (pure v) s [] Q :=
  ⟨v, s, rfl, .refl s, rfl, h⟩

theorem Gives.bind (h : Gives p s ts Q)
    (hf : ∀ v s', s.Took ts s' → Q v → Gives (f v) s' us R) : Gives (p >>= f) s (ts ++ us) R :=
  gives_iff_records.mpr (h.records.bind_gives hf)

/-- What comes after takes no token. -/
theorem Gives.bind_nil (h : Gives p s ts Q)
    (hf : ∀ v s', s.Took ts s' → Q v → Gives (f v) s' [] R) : Gives (p >>= f) s ts R := by
  simpa using h.bind hf

/-- Only the value is changed after. -/
theorem Gives.map {g : α → β} (h : Gives p s ts Q) (hg : ∀ v, Q v → R (g v)) :
    Gives (p >>= fun v => Pure.pure (g v)) s ts R :=
  gives_iff_records.mpr (h.records.map hg)

theorem Gives.look {f : State → Parser β} (h : Gives (f s) s ts R) : Gives (look >>= f) s ts R := h

theorem Gives.next (hr : s.rest = t :: us) : Gives next s [t] (· = t) :=
  ⟨t, _, run_next hr, State.took_past hr, rfl, rfl⟩

theorem Gives.skipOne (hr : s.rest = t :: us) : Gives (skip 1) s [t] fun _ => True :=
  ⟨(), _, run_skip_one hr, State.took_past hr, rfl, trivial⟩

theorem Gives.skipTwo {u : Token} (hr : s.rest = t :: u :: us) :
    Gives (skip 2) s [t, u] fun _ => True :=
  ⟨(), _, run_skip_two hr, (State.took_past hr).trans (State.took_past rfl), rfl, trivial⟩

theorem State.isAtOnLine_cons {k : TokenKind} (hr : s.rest = t :: us) (hk : t.kind = k)
    (hl : t.lineStart = false) : s.isAtOnLine k = true := by
  simp [isAtOnLine, onLine, isAt, kind?, hr, hk, hl]

theorem Gives.accept {k : TokenKind} (hr : s.rest = t :: us) (hk : t.kind = k)
    (hl : t.lineStart = false) : Gives (accept k) s [t] (· = true) :=
  ⟨true, _, run_accept_true hr (State.isAtOnLine_cons hr hk hl), State.took_past hr, rfl, rfl⟩

theorem Gives.reject {k : TokenKind} (h : s.isAtOnLine k = false) :
    Gives (Parser.accept k) s [] (· = false) :=
  ⟨false, s, run_accept_false h, .refl s, rfl, rfl⟩

theorem Gives.acceptAnywhere {k : TokenKind} (hr : s.rest = t :: us) (hk : t.kind = k) :
    Gives (acceptAnywhere k) s [t] (· = true) := by
  have hat : s.isAt k = true := by simp [State.isAt, State.kind?, hr, hk]
  refine ⟨true, _, ?_, State.took_past hr, rfl, rfl⟩
  simp only [Parser.acceptAnywhere, run_bind, run_look, hat, if_true, run_skip_one hr, run_pure]

theorem Gives.rejectAnywhere {k : TokenKind} (h : s.isAt k = false) :
    Gives (Parser.acceptAnywhere k) s [] (· = false) := by
  refine ⟨false, s, ?_, .refl s, rfl, rfl⟩
  simp [Parser.acceptAnywhere, run_bind, h]

theorem Gives.require {k : TokenKind} {d : String} (hr : s.rest = t :: us) (hk : t.kind = k)
    (hl : t.lineStart = false) : Gives (require k d) s [t] (· = t) :=
  ⟨t, _, run_require hr (State.isAtOnLine_cons hr hk hl), State.took_past hr, rfl, rfl⟩

theorem Gives.withAngled {b : Bool} (h : Gives p { s with angled := b } ts Q) :
    Gives (withAngled b p) s ts Q := by
  obtain ⟨v, s', hrun, ht, hf, hv⟩ := h
  refine ⟨v, { s' with angled := s.angled }, ?_, ?_, hf, hv⟩
  · rw [run_withAngled, hrun]
  · exact ⟨ht.rest, ht.previous, ht.begun, ht.comments, ht.blocks, rfl⟩

theorem Gives.attempt (h : Gives p s ts Q) :
    Gives (attempt p) s ts fun r => ∃ v, r = some v ∧ Q v := by
  obtain ⟨v, s', hrun, ht, hf, hv⟩ := h
  exact ⟨some v, s', run_attempt_some hrun, ht, hf, v, rfl, hv⟩

theorem Gives.orSkip (h : Gives p s ts Q) :
    Gives (orSkip p) s ts fun r => ∃ v, r = some v ∧ Q v := by
  obtain ⟨v, s', hrun, ht, hf, hv⟩ := h
  refine ⟨some v, s', ?_, ht, hf, v, rfl, hv⟩
  rw [Parser.orSkip, run_bind, run_catchFailure, hrun]
  rfl

theorem Gives.name {d : String} (hr : s.rest = t :: us) (hk : t.kind.isName = true)
    (hl : t.lineStart = false) : Gives (name d) s [t] (· = t.text) := by
  have hnext : s.nameNext = true := by simp [State.nameNext, hr, hk, hl]
  rw [Parser.name]
  refine Gives.look ?_
  rw [if_pos hnext]
  exact (Gives.next hr).map fun v hv => congrArg Token.text hv

theorem Gives.afterKeyword {k : Keyword} (hr : s.rest = t :: us) (hk : t.kind = .keyword k)
    (hl : t.lineStart = false) (h : ∀ s', s.Took [t] s' → Gives p s' ts Q) :
    Gives (afterKeyword? k p) s (t :: ts) fun r => ∃ v, r = some v ∧ Q v := by
  refine (Gives.accept hr hk hl).bind fun b s' hs' hb => ?_
  subst hb
  exact (h s' hs').map fun v hv => ⟨v, rfl, hv⟩

theorem Gives.withoutKeyword {k : Keyword} (h : s.isAtOnLine (.keyword k) = false) :
    Gives (afterKeyword? k p) s [] (· = none) := by
  refine (Gives.reject h).bind_nil fun b s' _ hb => ?_
  subst hb
  exact .pure rfl

section Loop
variable {step : α → Parser (Step α β)} {v : α}

/-- A round that goes on, and the rounds after it. -/
theorem Gives.more (h : Gives (step v) s ts fun r => ∃ w, r = .more w ∧ Q w) (hne : ts ≠ [])
    (hf : ∀ w s', s.Took ts s' → Q w → Gives (loop step w) s' us R) :
    Gives (loop step v) s (ts ++ us) R := by
  obtain ⟨_, s', hrun, ht, hfault, w, rfl, hw⟩ := h
  obtain ⟨u, s'', hrun', ht', hfault', hu⟩ := hf w s' ht hw
  refine ⟨u, s'', ?_, ht.trans ht', hfault'.trans hfault, hu⟩
  rw [loop_run, hrun]
  simpa [ht.length_lt hne] using hrun'

/-- The last round. -/
theorem Gives.done (h : Gives (step v) s ts fun r => ∃ w, r = .done w ∧ R w) :
    Gives (loop step v) s ts R :=
  gives_iff_records.mpr (.done h.records)

end Loop

end Gives
end PickSyntax.Parser
