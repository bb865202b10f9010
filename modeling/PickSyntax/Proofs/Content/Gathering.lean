import PickSyntax.Proofs.Content.Expression
import PickSyntax.Proofs.Parser.Onward

/-!
# Gathering content

A run from `s` to `s'` takes some tokens and some comments from the front of their queues. It
brings a content if the extents lie over those tokens and the comments are among those comments,
in their order. Unless a fault was recorded on the way, a comment is left out only in the gap of a
`BEGIN CASE` without a clause.

`Gathers` states of a parser that its successes bring the content of their value, with `acc`
brought in before. As in the account of leaves, each combinator has its rule, and in the end the
content of the value has to be exactly what was brought.
-/
namespace PickSyntax.Parser

variable {α β γ ι : Type}

/-- The tokens left are those of a source, or of the end of one. -/
structure State.Sound (s : State) : Prop where
  spelled : s.WellSpelled
  ordered : Ordered 0 s.rest

/-- `s'` is `s` after the tokens `ts` and the comments `cs`, out of which `c` was made. -/
structure State.Gathered (s : State) (ts : List Token) (cs : List Comment) (c : Content)
    (s' : State) : Prop where
  went : s.Went ts s'
  comments : s.comments = cs ++ s'.comments
  overlay : Overlay ts c.extents
  sublist : c.comments.Sublist cs
  fills : s'.faults = s.faults → FillsMarks c.marks cs

/-- A run from `s` to `s'` brings the content. -/
def State.Brings (s : State) (c : Content) (s' : State) : Prop := ∃ ts cs, s.Gathered ts cs c s'

section States
variable {s s' s'' : State} {c d : Content} {ts : List Token} {t : Token} {us : List Token}

theorem State.Went.sound (h : s.Went ts s') (hs : s.Sound) : s'.Sound :=
  ⟨h.wellSpelled hs.spelled, (h.rest ▸ hs.ordered).append_right⟩

namespace State.Brings

theorem refl (s : State) : s.Brings ∅ s :=
  ⟨[], [], .refl s, rfl, .bare, List.Sublist.refl _, fun _ => .nil⟩

theorem trans (h : s.Brings c s') (k : s'.Brings d s'') : s.Brings (c ++ d) s'' := by
  obtain ⟨ts, cs, h⟩ := h
  obtain ⟨us, ds, k⟩ := k
  refine ⟨ts ++ us, cs ++ ds, h.went.trans k.went, ?_, h.overlay.append k.overlay, ?_,
    fun hf => ?_⟩
  · rw [h.comments, k.comments, List.append_assoc]
  · rw [Content.comments_append]
    exact h.sublist.append k.sublist
  · obtain ⟨hf₁, hf₂⟩ := h.went.faults_eq k.went hf
    exact (h.fills hf₁).append (k.fills hf₂)

theorem sound (h : s.Brings c s') (hs : s.Sound) : s'.Sound := by
  obtain ⟨ts, cs, h⟩ := h
  exact h.went.sound hs

theorem length_le (h : s.Brings c s') : s'.rest.length ≤ s.rest.length := by
  obtain ⟨ts, cs, h⟩ := h
  exact h.went.length_le

/-- A fault is not taken back, whichever part of a run has recorded it. -/
theorem faults_ne (h : s.Brings c s') (k : s'.Brings d s'')
    (hf : s'.faults ≠ s.faults ∨ s''.faults ≠ s'.faults) : s''.faults ≠ s.faults := by
  obtain ⟨_, _, h⟩ := h
  obtain ⟨_, _, k⟩ := k
  intro he
  obtain ⟨h₁, h₂⟩ := h.went.faults_eq k.went he
  exact hf.elim (absurd h₁) (absurd h₂)

/-- After a fault, what was read may be dropped. -/
theorem drop (h : s.Brings c s') (hf : s'.faults ≠ s.faults) : s.Brings ∅ s' := by
  obtain ⟨ts, cs, h⟩ := h
  exact ⟨ts, cs, h.went, h.comments, .bare, List.nil_sublist _, fun he => absurd he hf⟩

theorem past (hr : s.rest = t :: us) : s.Brings ∅ (s.past t us) :=
  ⟨[t], [], (State.took_past hr).went List.prefix_rfl, rfl, .bare, List.Sublist.refl _,
    fun _ => .nil⟩

/-- A node that reaches from the first token to the last one consumed. -/
theorem within (h : s.Brings c s') (hs : s.Sound) (hr : s.rest = t :: us)
    (hlt : s'.rest.length < s.rest.length) :
    s.Brings (.within (s'.since t.span.start) c) s' := by
  obtain ⟨ts, cs, h⟩ := h
  have hrest := h.went.rest
  obtain ⟨t', ts, rfl⟩ : ∃ t' ts', ts = t' :: ts' := by
    cases ts with
    | nil => simp [hrest] at hlt
    | cons t' ts' => exact ⟨t', ts', rfl⟩
  obtain ⟨rfl, -⟩ := List.cons.inj (hr.symm.trans hrest)
  obtain ⟨u, hu⟩ : ∃ u, (t :: ts).getLast? = some u :=
    ⟨_, List.getLast?_eq_some_getLast (by simp)⟩
  have ho : Ordered 0 (t :: ts) := (hrest ▸ hs.ordered).append_left
  have hprev : s'.previous = some u := by
    rw [h.went.previous, hu]
    rfl
  refine ⟨t :: ts, cs, h.went, h.comments, ?_, h.sublist, h.fills⟩
  rw [Content.extents_within, State.since, hprev]
  exact .close ho hu h.overlay

/-- A run that only takes tokens. -/
theorem of_went (h : s.Went ts s') (hc : s'.comments = s.comments) : s.Brings ∅ s' :=
  ⟨ts, [], h, hc.symm, .bare, List.Sublist.refl _, fun _ => .nil⟩

end State.Brings
end States

/-- Every success of `p` from `s` brings the content of its value, but for `acc`, which was
brought before. -/
def GathersAt [Holds α] (acc : Content) (p : Parser α) (s : State) : Prop :=
  Returns p s fun v s' => ∃ new, content v = acc ++ new ∧ s.Brings new s'

/-- `p` gathers from every state with less than `n` tokens left. -/
def Gathers [Holds α] (n : Nat) (acc : Content) (p : Parser α) : Prop :=
  ∀ s : State, s.rest.length < n → s.Sound → GathersAt acc p s

section Rules
variable [Holds α] [Holds β] {n : Nat} {acc : Content} {p q : Parser α} {f : α → Parser β}
variable {s : State}

theorem GathersAt.brings {v : α} {s' : State} (h : GathersAt ∅ p s) (hr : p.run s = (some v, s')) :
    s.Brings (content v) s' := by
  obtain ⟨new, hv, hb⟩ := h v s' hr
  rwa [hv, Content.empty_append]

theorem GathersAt.of_brings (h : Returns p s fun v s' => s.Brings (content v) s') :
    GathersAt ∅ p s :=
  fun v s' hr => ⟨content v, by simp, h v s' hr⟩

theorem GathersAt.give {v : α} (h : content v = acc) : GathersAt acc (pure v) s :=
  Returns.pure ⟨∅, by simp [h], .refl s⟩

/-- At the end the content of the value is what was brought. -/
theorem Gathers.give {v : α} (h : content v = acc) : Gathers n acc (pure v) :=
  fun _ _ _ => GathersAt.give h

theorem GathersAt.here (h : Gathers n acc p) (hn : s.rest.length < n) (hs : s.Sound) :
    GathersAt acc p s :=
  h s hn hs

theorem GathersAt.bind (h : GathersAt ∅ p s) (hs : s.Sound)
    (hf : ∀ a s', p.run s = (some a, s') → s'.rest.length ≤ s.rest.length → s'.Sound →
      GathersAt (acc ++ content a) (f a) s') : GathersAt acc (p >>= f) s := by
  refine Returns.bind fun a s' hr b s'' hr' => ?_
  have ha := h.brings hr
  obtain ⟨new, hb, hnew⟩ := hf a s' hr ha.length_le (ha.sound hs) b s'' hr'
  exact ⟨content a ++ new, by rw [hb, Content.append_assoc], ha.trans hnew⟩

theorem Gathers.bind (h : Gathers n ∅ p) (hf : ∀ a, Gathers n (acc ++ content a) (f a)) :
    Gathers n acc (p >>= f) :=
  fun s hn hs => (h s hn hs).bind hs fun a s' _ hle hs' => hf a s' (Nat.lt_of_le_of_lt hle hn) hs'

/-- A value that is only wrapped. -/
theorem Gathers.map {g : α → β} (h : Gathers n acc p) (hg : ∀ a, content (g a) = content a) :
    Gathers n acc (p >>= fun a => pure (g a)) := by
  intro s hn hs
  refine Returns.bind fun a s' hr => Returns.pure ?_
  rw [hg]
  exact h s hn hs a s' hr

/-- A parser that brings nothing of its own, and one after it. -/
theorem GathersAt.next [Bare α] (h : GathersAt ∅ p s) (hs : s.Sound)
    (hf : ∀ a s', p.run s = (some a, s') → s'.rest.length ≤ s.rest.length → s'.Sound →
      GathersAt acc (f a) s') : GathersAt acc (p >>= f) s :=
  h.bind hs fun a s' hr hle hs' => by simpa using hf a s' hr hle hs'

theorem Gathers.next [Bare α] (h : Gathers n ∅ p) (hf : ∀ a, Gathers n acc (f a)) :
    Gathers n acc (p >>= f) :=
  h.bind fun a => by simpa using hf a

theorem Gathers.look {f : State → Parser β}
    (h : ∀ s, s.rest.length < n → s.Sound → GathersAt acc (f s) s) :
    Gathers n acc (look >>= f) :=
  h

theorem Gathers.ite {c : Prop} [Decidable c] (ht : c → Gathers n acc p)
    (he : ¬c → Gathers n acc q) : Gathers n acc (if c then p else q) := by
  split
  next h => exact ht h
  next h => exact he h

theorem GathersAt.ite {c : Prop} [Decidable c] (ht : c → GathersAt acc p s)
    (he : ¬c → GathersAt acc q s) : GathersAt acc (if c then p else q) s := by
  split
  next h => exact ht h
  next h => exact he h

theorem GathersAt.inBlock {b : Block} (h : GathersAt ∅ p { s with blocks := b :: s.blocks }) :
    GathersAt ∅ (inBlock b p) s := by
  refine .of_brings fun v s' hr => ?_
  rw [run_inBlock] at hr
  obtain ⟨hv, rfl⟩ := Prod.mk.inj hr
  obtain ⟨ts, cs, hb⟩ := h.brings (Prod.ext hv rfl)
  exact ⟨ts, cs, ⟨hb.went.rest, hb.went.previous, congrArg List.tail hb.went.blocks, hb.went.angled,
    hb.went.faults⟩, hb.comments, hb.overlay, hb.sublist, hb.fills⟩

/-- A parser that keeps to one statement places no comment. -/
theorem Meets.gathersAt {Q : List Token → α → State → Prop} (h : Meets p s Q) (hs : s.Sound)
    (hq : ∀ ts v s', Ordered 0 ts → Q ts v s' →
      Overlay ts (content v).extents ∧ (content v).marks = []) : GathersAt ∅ p s := by
  refine .of_brings fun v s' hr => ?_
  obtain ⟨ts, ht, hf, hv⟩ := h.yields v s' hr
  obtain ⟨ho, hm⟩ := hq ts v s' (ht.rest ▸ hs.ordered).append_left hv
  exact ⟨ts, [], ht.went (by rw [hf]), ht.comments.symm, ho, by simp [Content.comments, hm],
    fun _ => hm ▸ .nil⟩

/-- A parser that keeps to one statement, and whose values hold nothing. -/
theorem Gathers.of_meets [Bare α] (h : ∀ s, Meets p s fun _ _ _ => True) : Gathers n ∅ p :=
  fun s _ hs => (h s).gathersAt hs fun _ _ _ _ _ => ⟨by simpa using .bare, by simp⟩

end Rules

instance [Holds β] [Holds γ] : Holds (Step β γ) where
  content
    | .more v => content v
    | .done c => content c

@[simp] theorem content_more [Holds β] [Holds γ] (v : β) :
    content (Step.more v : Step β γ) = content v := by
  simp only [content]

@[simp] theorem content_done [Holds β] [Holds γ] (c : γ) :
    content (Step.done c : Step β γ) = content c := by
  simp only [content]

/-- A loop gathers if each round does, with what the rounds before it have brought. -/
theorem Gathers.loop [Holds β] [Holds γ] {n : Nat} {step : β → Parser (Step β γ)}
    (hstep : ∀ v, Gathers n (content v) (step v)) (v : β) :
    Gathers n (content v) (loop step v) := by
  intro s hn hs
  refine Returns.loop (I := fun v' s' => ∃ new, content v' = content v ++ new ∧ s.Brings new s')
    (fun v' s' ⟨new, hv', hb⟩ r s'' hr => ?_) ⟨∅, by simp, .refl s⟩
  obtain ⟨new', hr', hb'⟩ := hstep v' s' (Nat.lt_of_le_of_lt hb.length_le hn) (hb.sound hs) r s'' hr
  have hall : content r = content v ++ (new ++ new') := by
    rw [hr', hv', Content.append_assoc]
  cases r with
  | more v'' => exact ⟨new ++ new', hall, hb.trans hb'⟩
  | done c => exact ⟨new ++ new', hall, hb.trans hb'⟩

section Primitives
variable [Holds α] {n : Nat} {acc : Content} {p : Parser α} {s : State}

theorem fail_gathers : Gathers n acc (fail : Parser α) := by
  intro s _ _ v s' hr
  cases hr

theorem report_gathers {f : Fault} : Gathers n ∅ (report f) := by
  refine fun s _ _ => .of_brings fun v s' hr => ?_
  cases hr
  have hw : s.Went [] { s with faults := s.faults ++ [f] } :=
    ⟨rfl, rfl, rfl, rfl, List.prefix_append _ _⟩
  exact .of_went hw rfl

theorem reportFail_gathers {f : Fault} :
    Gathers n acc (report f >>= fun _ => (fail : Parser α)) :=
  report_gathers.next fun _ => fail_gathers

theorem reportExpected_gathers {d : String} : Gathers n ∅ (reportExpected d) :=
  .look fun _ hn hs => .here report_gathers hn hs

theorem expected_gathers {d : String} : Gathers n acc (expected d : Parser α) :=
  reportExpected_gathers.next fun _ => fail_gathers

theorem accept_gathers {k : TokenKind} : Gathers n ∅ (accept k) :=
  .of_meets fun _ => Meets.accept (fun _ _ _ _ => trivial) fun _ => trivial

theorem acceptAnywhere_gathers {k : TokenKind} : Gathers n ∅ (acceptAnywhere k) :=
  .of_meets fun _ => Meets.acceptAnywhere (fun _ _ _ _ => trivial) fun _ => trivial

theorem require_gathers {k : TokenKind} {d : String} : Gathers n ∅ (require k d) :=
  .of_meets fun _ => Meets.require fun _ _ _ _ => trivial

theorem next_gathers : Gathers n ∅ next := by
  refine fun s _ _ => .of_brings fun t s' hr => ?_
  cases h : s.rest with
  | nil => simp [Parser.next, h] at hr
  | cons t us =>
    rw [run_next h] at hr
    cases hr
    exact .past h

theorem name_gathers {d : String} : Gathers n ∅ (name d) :=
  .look fun s hn hs => .ite
    (fun _ => (next_gathers s hn hs).next hs fun _ _ _ _ _ => .give (by simp))
    fun _ => expected_gathers s hn hs

theorem afterKeyword_gathers {k : Keyword} (h : Gathers n ∅ p) :
    Gathers n ∅ (afterKeyword? k p) :=
  accept_gathers.next fun _ => .ite (fun _ => h.map fun _ => by simp) fun _ => .give (by simp)

theorem afterComma_gathers (h : Gathers n ∅ p) : Gathers n ∅ (afterComma? p) :=
  accept_gathers.next fun _ => .ite (fun _ => h.map fun _ => by simp) fun _ => .give (by simp)

theorem commaStep_gathers (h : Gathers n ∅ p) (vs : List α) :
    Gathers n (content vs) (commaStep p vs) :=
  accept_gathers.next fun _ => .ite (fun _ => h.bind fun v => .give (by simp)) fun _ =>
    .give (by simp)

theorem commaList_gathers (h : Gathers n ∅ p) : Gathers n ∅ (commaList p) :=
  h.bind fun v => by simpa using Gathers.loop (commaStep_gathers h) [v]

theorem State.brings_skipWhile (s : State) (c : Token → Bool) : s.Brings ∅ (s.skipWhile c) :=
  .of_went (s.went_skipWhile c) rfl

/-- What a failure has read is left out. -/
theorem GathersAt.orSkip (h : GathersAt ∅ p s)
    (hnone : ∀ s', p.run s = (none, s') → s.Brings ∅ s') :
    GathersAt ∅ (orSkip p) s := by
  refine .of_brings fun v s' hr => ?_
  rcases hp : p.run s with ⟨_ | a, s₁⟩ <;>
    simp only [Parser.orSkip, run_bind, run_catchFailure, hp] at hr
  · cases hr
    simpa using (hnone s₁ hp).trans (s₁.brings_skipWhile _)
  · cases hr
    exact h.brings hp

omit [Holds α] in
/-- A parser that keeps to one statement takes no comment when it fails. -/
theorem Meets.brings_none {Q : List Token → α → State → Prop} (h : Meets p s Q) {s' : State}
    (hr : p.run s = (none, s')) : s.Brings ∅ s' := by
  obtain ⟨ts, ht, hf⟩ := h
  rw [hr] at ht hf
  obtain ⟨f, hf⟩ := hf
  exact .of_went (ht.went ⟨[f], hf.symm⟩) ht.comments

end Primitives

end PickSyntax.Parser
