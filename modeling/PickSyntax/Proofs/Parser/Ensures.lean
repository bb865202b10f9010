import PickSyntax.Proofs.Parser.Steady

/-!
# What parsers promise of their values

`Ensures tokens p Q` says that every value of `p` is as `Q` says, wherever `p` begins in the
tokens, and `EnsuresInside tokens p Q` that it is so if `p` begins behind the first token of a
statement. Nothing is said of a failure, and the promise holds of runs that record faults as well
as of clean ones. A parser goes on along the tokens, so that it stands in them after a run if it
did before; a steady one stays inside the statement too.

Each combinator has its rule. In the rule of a loop the invariant is about the value carried
along, and in that of a knot the nested parsers keep the promise that is to be shown.
-/
namespace PickSyntax.Parser

variable {α β γ ι : Type} {tokens : List Token} {inside : Bool}

/-- What is left is the end of the tokens, and where `inside` asks for that, a statement has
begun. -/
structure State.Within (inside : Bool) (tokens : List Token) (s : State) : Prop where
  rest : s.rest <:+ tokens
  begun : inside = true → s.begun = true

/-- Every value of the parser is as `Q` says, if it begins within the tokens. -/
def EnsuresFrom (inside : Bool) (tokens : List Token) (p : Parser α) (Q : α → Prop) : Prop :=
  ∀ s : State, s.Within inside tokens → Returns p s fun v _ => Q v

abbrev Ensures (tokens : List Token) (p : Parser α) (Q : α → Prop) : Prop :=
  EnsuresFrom false tokens p Q

abbrev EnsuresInside (tokens : List Token) (p : Parser α) (Q : α → Prop) : Prop :=
  EnsuresFrom true tokens p Q

namespace State.Within
variable {p : Parser α} {s s' : State} {v : Option α}

theorem anywhere (h : s.Within inside tokens) : s.Within false tokens := ⟨h.rest, nofun⟩

theorem after [Onward p] [hp : Steady inside p] (h : s.Within inside tokens)
    (hr : p.run s = (v, s')) : s'.Within inside tokens := by
  have hbegun (hi : inside = true) := hp.begun hi s (h.begun hi)
  rw [hr] at hbegun
  exact ⟨(Onward.run_reaches hr).rest.trans h.rest, hbegun⟩

/-- Behind a token a statement has begun. -/
theorem past {t : Token} {us : List Token} (h : s.rest <:+ tokens) (hr : s.rest = t :: us) :
    (s.past t us).Within inside tokens :=
  ⟨(List.suffix_cons t us).trans (hr ▸ h), fun _ => rfl⟩

end State.Within

namespace EnsuresFrom
variable {p q : Parser α} {f : α → Parser β} {Q : α → Prop} {R : β → Prop}

/-- A promise about the outcome of a parser that succeeds is one about its values. -/
theorem of_meets {P : List Token → α → State → Prop} (h : ∀ s, Meets p s P)
    (hq : ∀ ts v s, (∀ t ∈ ts, t ∈ tokens) → P ts v s → Q v) : EnsuresFrom inside tokens p Q := by
  intro s hs v s' hr
  obtain ⟨ts, ht, -, hv⟩ := (h s).yields v s' hr
  refine hq ts v s' (fun t hmem => hs.rest.subset ?_) hv
  rw [ht.rest]
  exact List.mem_append_left _ hmem

/-- What is promised anywhere is promised inside a statement. -/
theorem of_anywhere (h : Ensures tokens p Q) : EnsuresFrom inside tokens p Q :=
  fun s hs => h s hs.anywhere

theorem pure {v : α} (h : Q v) : EnsuresFrom inside tokens (pure v) Q :=
  fun _ _ => Returns.pure h

theorem fail : EnsuresFrom inside tokens (fail : Parser α) Q :=
  fun _ _ => Returns.fail

theorem bind [Onward p] [Steady inside p] (h : EnsuresFrom inside tokens p Q)
    (hf : ∀ v, Q v → EnsuresFrom inside tokens (f v) R) : EnsuresFrom inside tokens (p >>= f) R :=
  fun s hs => Returns.bind fun v s' hr => hf v (h s hs v s' hr) s' (hs.after hr)

/-- What follows the last part that depends on where it stands. -/
theorem thenAnywhere [hp : Onward p] (h : EnsuresFrom inside tokens p Q)
    (hf : ∀ v, Q v → Ensures tokens (f v) R) : EnsuresFrom inside tokens (p >>= f) R :=
  fun s hs => Returns.bind fun v s' hr => hf v (h s hs v s' hr) s' (hs.anywhere.after hr)

theorem any : EnsuresFrom inside tokens p fun _ => True :=
  fun _ _ _ _ _ => trivial

/-- A parser of which nothing needs to be known. -/
theorem past [Onward p] [Steady inside p] (hf : ∀ v, EnsuresFrom inside tokens (f v) R) :
    EnsuresFrom inside tokens (p >>= f) R :=
  bind any fun v _ => hf v

/-- The first token of a statement leads inside. -/
theorem next {f : Token → Parser β} (hf : ∀ t, EnsuresInside tokens (f t) R) :
    EnsuresFrom inside tokens (next >>= f) R := by
  refine fun s hs => Returns.bind fun t s' hr => ?_
  obtain ⟨us, hrest, rfl⟩ := taken_of_next hr
  exact hf t _ (.past hs.rest hrest)

theorem look {f : State → Parser β} (hf : ∀ s, EnsuresFrom inside tokens (f s) R) :
    EnsuresFrom inside tokens (look >>= f) R :=
  past hf

theorem ite {c : Prop} [Decidable c] (ht : c → EnsuresFrom inside tokens p Q)
    (he : ¬c → EnsuresFrom inside tokens q Q) :
    EnsuresFrom inside tokens (if c then p else q) Q := by
  split
  next h => exact ht h
  next h => exact he h

theorem expected {d : String} : EnsuresFrom inside tokens (expected d : Parser α) Q :=
  past fun _ => fail

/-- What holds of every value holds of the one that is caught. -/
theorem catchFailure (h : EnsuresFrom inside tokens p Q) :
    EnsuresFrom inside tokens (catchFailure p) fun o => ∀ v ∈ o, Q v := by
  intro s hs o s' hr v hv
  rw [run_catchFailure] at hr
  cases hr
  exact h s hs v _ (Prod.ext hv rfl)

theorem orSkip (h : EnsuresFrom inside tokens p Q) :
    EnsuresFrom inside tokens (orSkip p) fun o => ∀ v ∈ o, Q v := by
  intro s hs o s' hr v hv
  rcases hp : p.run s with ⟨_ | a, s₁⟩ <;>
    simp only [Parser.orSkip, run_bind, run_catchFailure, hp] at hr <;> cases hr
  · cases hv
  · obtain rfl := Option.some.inj hv
    exact h s hs a _ hp

theorem inBlock {b : Block} (h : EnsuresFrom inside tokens p Q) :
    EnsuresFrom inside tokens (inBlock b p) Q := by
  intro s hs v s' hr
  rcases hp : p.run { s with blocks := b :: s.blocks } with ⟨o, s₁⟩
  rw [run_inBlock, hp] at hr
  cases hr
  exact h { s with blocks := b :: s.blocks } ⟨hs.rest, hs.begun⟩ v s₁ hp

theorem withAngled {b : Bool} (h : EnsuresFrom inside tokens p Q) :
    EnsuresFrom inside tokens (withAngled b p) Q :=
  fun s hs => Returns.withAngled (h { s with angled := b } ⟨hs.rest, hs.begun⟩)

theorem afterKeyword {k : Keyword} [Onward p] [Steady inside p]
    (h : EnsuresFrom inside tokens p Q) :
    EnsuresFrom inside tokens (afterKeyword? k p) fun o => ∀ v ∈ o, Q v := by
  refine past fun b => ite (fun _ => ?_) fun _ => pure (by simp)
  exact bind h fun v hv => pure (by simpa using hv)

theorem afterComma [Onward p] [Steady inside p] (h : EnsuresFrom inside tokens p Q) :
    EnsuresFrom inside tokens (afterComma? p) fun o => ∀ v ∈ o, Q v := by
  refine past fun b => ite (fun _ => ?_) fun _ => pure (by simp)
  exact bind h fun v hv => pure (by simpa using hv)

theorem loop {step : β → Parser (Step β γ)} [hstep : ∀ v, Onward (step v)]
    [∀ v, Steady inside (step v)] {I : β → Prop} {Q : γ → Prop}
    (h : ∀ v, I v → EnsuresFrom inside tokens (step v) (·.Says I Q)) {v : β} (hi : I v) :
    EnsuresFrom inside tokens (loop step v) Q := by
  intro s hs
  refine Returns.loop (I := fun v s => I v ∧ s.Within inside tokens) (fun v s hv r s' hr => ?_)
    ⟨hi, hs⟩
  have hsaid := h v hv.1 s hv.2 r s' hr
  cases r with
  | more w => exact ⟨hsaid, hv.2.after hr⟩
  | done c => exact hsaid

/-- A list with commas in it is never empty. -/
theorem commaList [Onward p] [Steady inside p] (h : EnsuresFrom inside tokens p Q) :
    EnsuresFrom inside tokens (commaList p) fun vs => vs ≠ [] ∧ ∀ v ∈ vs, Q v := by
  unfold Parser.commaList Parser.commaStep
  refine bind h fun v hv => loop (I := fun vs => vs ≠ [] ∧ ∀ v ∈ vs, Q v) (fun vs hvs => ?_)
    (by simpa using hv)
  refine past fun b => ite (fun _ => ?_) fun _ => pure hvs
  refine bind h fun w hw => pure ⟨by simp, ?_⟩
  simpa [or_imp, forall_and] using ⟨hvs.2, hw⟩

/-- A knot keeps a promise that its body keeps around any parsers that keep it. -/
theorem knot {body : (ι → Parser α) → ι → Parser α} {Q : ι → α → Prop}
    (ho : ∀ i, Onward (knot body i))
    (hbody : ∀ nested, (∀ j, Onward (nested j)) → (∀ j, Ensures tokens (nested j) (Q j)) →
      ∀ i, Ensures tokens (body nested i) (Q i)) (i : ι) : Ensures tokens (knot body i) (Q i) := by
  intro s hs v s' hr
  induction hk : s.rest.length using Nat.strongRecOn generalizing i s v s' with
  | ind k ih =>
    rw [knot_run] at hr
    refine hbody _ (fun _ => inferInstance) (fun j s₁ hs₁ w s₂ hw => ?_) i s hs v s' hr
    unfold Parser.below at hw
    dsimp only at hw
    split at hw
    next hlt => exact ih _ (hk ▸ hlt) j s₁ hs₁ w s₂ hw rfl
    next => cases hw

end EnsuresFrom
end PickSyntax.Parser
