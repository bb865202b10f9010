import PickSyntax.Grammar.Statement
import PickSyntax.Proofs.Expression.Climbing
import PickSyntax.Proofs.Parser.Onward

/-!
# Comments in front of a line are heeded

A token that begins a line is taken only after the comments in front of it, wherever it stands:
at the beginning of a statement, as the terminator of a block, as a separator. Two kinds of tokens
are taken on whatever line they stand, with comments left in front of them: a sign, and the
parenthesis that closes an empty list. A third kind, the `END` of a clause that began on one line,
depends on what has been read, and so is a parameter of what is said about two states.

The property composes, so it is a class as going on is, for the parsers that take no such `END`. It
is conditional: a token may be taken at once only from a state that is `Clear`, so the parsers that
do so are heeding there.
-/
namespace PickSyntax

open PickSyntax.Parser

/-- The token is taken on whatever line it stands: it is a sign, or it is a parenthesis that closes
right behind the one that opens. -/
def Token.CrossesLines (tokens : List Token) (t : Token) : Prop :=
  (Grammar.unaryOf? t.kind).isSome = true ∨
    ∃ o, [o, t] <:+: tokens ∧ o.kind = .symbol .leftParen ∧ t.kind = .symbol .rightParen

/-- Taking the token leaves none of the comments behind. -/
def Token.Passes (tokens : List Token) (cs : List Comment) (t : Token) : Prop :=
  t.lineStart = true → t.CrossesLines tokens ∨ ∀ c ∈ cs, t.span.start ≤ c.span.start

namespace Token.Passes
variable {tokens : List Token} {cs : List Comment} {t : Token}

theorem of_onLine (h : t.lineStart = false) : t.Passes tokens cs := by
  intro hl
  rw [h] at hl
  cases hl

theorem widen {us : List Token} {ds : List Comment} (h : t.Passes us cs) (hus : us <:+: tokens)
    (hs : ds ⊆ cs) : t.Passes tokens ds := by
  intro hl
  obtain (hsign | ⟨o, ho, hopen⟩) | hc := h hl
  · exact .inl (.inl hsign)
  · exact .inl (.inr ⟨o, ho.trans hus, hopen⟩)
  · exact .inr fun c hm => hc c (hs hm)

end Token.Passes

namespace Parser

variable {α β γ ι : Type}

/-- The next token may be taken. -/
def State.Clear (s : State) : Prop := ∀ t ∈ s.rest.head?, t.Passes [] s.comments

/-- All comments in front of the next token have been taken, and all of them at the end. -/
def State.Placed (s : State) : Prop :=
  ∀ c ∈ s.comments, ∃ t ∈ s.rest.head?, t.span.start ≤ c.span.start

theorem State.Placed.le {s : State} (h : s.Placed) {t : Token} (ht : t ∈ s.rest.head?) :
    ∀ c ∈ s.comments, t.span.start ≤ c.span.start := by
  intro c hc
  obtain ⟨u, hu, hle⟩ := h c hc
  obtain rfl : u = t := Option.some.inj (hu.symm.trans ht)
  exact hle

theorem State.Placed.clear {s : State} (h : s.Placed) : s.Clear :=
  fun _ ht _ => .inr (h.le ht)

/-- The comments that are left stand in their order. -/
def State.Sorted (s : State) : Prop := s.comments.Pairwise fun c d => c.span.start ≤ d.span.start

/-- The comments stand in their order, and every token but the first has a blank before it if it
begins a line. A statement that has not begun may do so. -/
structure State.Poised (s : State) : Prop where
  sorted : s.Sorted
  spaced : ∀ t ∈ s.rest.tail, t.lineStart = true → t.spaced = true
  first : s.begun = false → s.Clear

/-- Between two states the comments in front of a line have been heeded, but for the tokens that
are `closing`. -/
structure State.Heeds (closing : Token → Prop) (s s' : State) : Prop where
  passes : ∃ us, s.rest = us ++ s'.rest ∧ ∀ t ∈ us, closing t ∨ t.Passes s.rest s'.comments
  comments : s'.comments <:+ s.comments
  poised : s'.Poised

theorem tail_subset_of_suffix {xs ys : List α} (h : xs <:+ ys) : xs.tail ⊆ ys.tail := by
  obtain ⟨_ | ⟨z, zs⟩, rfl⟩ := h
  · exact List.Subset.refl _
  · exact fun _ hx => List.mem_append_right _ (List.mem_of_mem_tail hx)

section States
variable {s s' s'' : State} {t : Token} {us : List Token} {closing : Token → Prop}

namespace State.Heeds

theorem refl (h : s.Poised) : s.Heeds closing s := ⟨⟨[], rfl, nofun⟩, List.suffix_rfl, h⟩

theorem mono {closing' : Token → Prop} (h : s.Heeds closing s') (hc : ∀ t, closing t → closing' t) :
    s.Heeds closing' s' := by
  obtain ⟨us, hus, hpass⟩ := h.passes
  exact ⟨⟨us, hus, fun t ht => (hpass t ht).imp_left (hc t)⟩, h.comments, h.poised⟩

theorem lax (h : s.Heeds (fun _ => False) s') : s.Heeds closing s' := h.mono fun _ => False.elim

theorem trans (h : s.Heeds closing s') (k : s'.Heeds closing s'') : s.Heeds closing s'' := by
  obtain ⟨us, hus, hpass⟩ := h.passes
  obtain ⟨vs, hvs, hpass'⟩ := k.passes
  refine ⟨⟨us ++ vs, by rw [hus, hvs, List.append_assoc], fun t ht => ?_⟩,
    k.comments.trans h.comments, k.poised⟩
  obtain ht | ht := List.mem_append.mp ht
  · exact (hpass t ht).imp_right (·.widen List.infix_rfl k.comments.subset)
  · have hsuffix : s'.rest <:+ s.rest := ⟨us, hus.symm⟩
    exact (hpass' t ht).imp_right (·.widen hsuffix.isInfix (List.Subset.refl _))

/-- Nothing else of the two states matters. -/
theorem congr {r r' : State} (h : r.Heeds closing r')
    (hs : s.rest = r.rest ∧ s.comments = r.comments)
    (hs' : s'.rest = r'.rest ∧ s'.comments = r'.comments ∧ s'.begun = r'.begun) :
    s.Heeds closing s' := by
  obtain ⟨us, hus, hpass⟩ := h.passes
  obtain ⟨hr, hc, hb⟩ := hs'
  have hrest : s.rest = us ++ s'.rest := by rw [hs.1, hr, hus]
  refine ⟨⟨us, hrest, by rwa [hc, hs.1]⟩, ?_, ?_, hr ▸ h.poised.spaced, fun hf => ?_⟩
  · rw [hs.2, hc]
    exact h.comments
  · have hsorted := h.poised.sorted
    unfold Sorted at hsorted ⊢
    rwa [hc]
  · have hfirst := h.poised.first (hb ▸ hf)
    unfold Clear at hfirst ⊢
    rwa [hr, hc]

theorem take (h : s.Poised) (hr : s.rest = t :: us) (ht : closing t ∨ t.Passes s.rest s.comments) :
    s.Heeds closing (s.past t us) := by
  refine ⟨⟨[t], hr, fun u hu => ?_⟩, List.suffix_rfl, h.sorted, fun u hu => ?_, nofun⟩
  · obtain rfl := List.mem_singleton.mp hu
    exact ht
  · exact h.spaced u (by rw [hr]; exact List.mem_of_mem_tail hu)

theorem past (h : s.Poised) (hc : s.Clear) (hr : s.rest = t :: us) :
    s.Heeds closing (s.past t us) := by
  have ht : t.Passes [] s.comments := hc t (by rw [hr]; rfl)
  exact take h hr (.inr (ht.widen (List.nil_infix ..) (List.Subset.refl _)))

/-- Two tokens, of which the second one may depend on the first. -/
theorem pastTwo {u : Token} (h : s.Poised) (hc : s.Clear) (hr : s.rest = t :: u :: us)
    (hu : u.Passes [t, u] s.comments) : s.Heeds closing ((s.past t (u :: us)).past u us) := by
  have hfirst : s.Heeds closing (s.past t (u :: us)) := past h hc hr
  have htwo : [t, u] <:+: s.rest := hr ▸ ⟨[], us, rfl⟩
  refine ⟨⟨[t, u], hr, fun v hv => ?_⟩, List.suffix_rfl, h.sorted, fun v hv => ?_, nofun⟩
  · obtain rfl | hv := List.mem_cons.mp hv
    · exact .inr ((hc v (by rw [hr]; rfl)).widen (List.nil_infix ..) (List.Subset.refl _))
    · obtain rfl := List.mem_singleton.mp hv
      exact .inr (hu.widen htwo (List.Subset.refl _))
  · exact hfirst.poised.spaced v (List.mem_of_mem_tail hv)

end State.Heeds

/-- On the line there is no comment in front of a token. -/
theorem State.clear_of_onLine (h : s.onLine = true) : s.Clear := by
  intro t ht
  obtain ⟨us, hr⟩ := List.head?_eq_some_iff.mp ht
  exact .of_onLine (by simpa [State.onLine, hr] using h)

/-- The comments that are not pending stand behind the next token, as do all after them. -/
theorem State.Sorted.placed (h : s.Sorted) (hp : s.comments.takeWhile s.isPending = []) :
    s.Placed := by
  intro c hc
  cases hcs : s.comments with
  | nil =>
    rw [hcs] at hc
    cases hc
  | cons d ds =>
    rw [hcs, List.takeWhile_cons] at hp
    have hd : s.isPending d = false := by
      by_contra hd
      simp [hd] at hp
    unfold State.Sorted at h
    rw [hcs] at hc h
    have hle : d.span.start ≤ c.span.start := by
      obtain rfl | hc := List.mem_cons.mp hc
      · exact Nat.le_refl _
      · exact List.rel_of_pairwise_cons h hc
    cases hr : s.rest with
    | nil => simp [State.isPending, hr] at hd
    | cons t us =>
      have hnot : ¬d.span.start < t.span.start := by simpa [State.isPending, hr] using hd
      exact ⟨t, rfl, by omega⟩

end States

/-- The run of `p` from `s` heeds the comments, if the state is poised. -/
def HeedsAt (p : Parser α) (s : State) : Prop := s.Poised → s.Heeds (fun _ => False) (p.run s).2

/-- Every run of `p` heeds the comments. -/
class Heeding (p : Parser α) : Prop where
  heeds : ∀ s, HeedsAt p s

section Rules
variable {p q : Parser α} {f : α → Parser β} {s : State}

theorem Heeding.at (p : Parser α) [h : Heeding p] (s : State) : HeedsAt p s := h.heeds s

theorem Heeding.of (h : ∀ s, HeedsAt p s) : Heeding p := ⟨h⟩

namespace HeedsAt

theorem run {v : Option α} {s' : State} (h : HeedsAt p s) (hp : s.Poised)
    (hr : p.run s = (v, s')) : s.Heeds (fun _ => False) s' := by
  have h := h hp
  rwa [hr] at h

theorem bind (h : HeedsAt p s) (hf : ∀ a s', p.run s = (some a, s') → HeedsAt (f a) s') :
    HeedsAt (p >>= f) s := by
  intro hp
  have h := h hp
  rcases hr : p.run s with ⟨_ | a, s'⟩ <;> rw [hr] at h
  · rwa [run_bind_none hr]
  · rw [run_bind_some hr]
    exact h.trans (hf a s' hr h.poised)

theorem andThen (h : HeedsAt p s) [hf : ∀ a, Heeding (f a)] : HeedsAt (p >>= f) s :=
  h.bind fun a s' _ => Heeding.at (f a) s'

theorem look {f : State → Parser β} (h : HeedsAt (f s) s) : HeedsAt (look >>= f) s := h

theorem ite {c : Prop} [Decidable c] (ht : c → HeedsAt p s) (he : ¬c → HeedsAt q s) :
    HeedsAt (if c then p else q) s := by
  split
  next h => exact ht h
  next h => exact he h

theorem next (h : s.Clear) : HeedsAt next s := by
  intro hp
  cases hr : s.rest with
  | nil =>
    have hrun : Parser.next.run s = (none, s) := by simp only [Parser.next, hr]
    rw [hrun]
    exact .refl hp
  | cons t us =>
    rw [run_next hr]
    exact .past hp h hr

theorem skipOne (h : s.Clear) : HeedsAt (skip 1) s := by
  intro hp
  cases hr : s.rest with
  | nil =>
    have hrun : (skip 1).run s = (some (), s) := by
      simp only [skip, run_modifyState, State.drop, hr]
    rw [hrun]
    exact .refl hp
  | cons t us =>
    rw [run_skip_one hr]
    exact .past hp h hr

/-- Two tokens, of which the second one is on the line. -/
theorem skipTwo {t u : Token} {us : List Token} (h : s.Clear) (hr : s.rest = t :: u :: us)
    (hu : u.lineStart = false) : HeedsAt (skip 2) s := by
  intro hp
  rw [run_skip_two hr]
  exact .pastTwo hp h hr (.of_onLine hu)

theorem attempt (h : HeedsAt p s) : HeedsAt (attempt p) s := by
  intro hp
  have h := h hp
  rcases hr : p.run s with ⟨_ | a, s'⟩ <;> rw [hr] at h
  · rw [run_attempt_none hr]
    exact .refl hp
  · rwa [run_attempt_some hr]

end HeedsAt

namespace Heeding

instance pure (a : α) : Heeding (pure a : Parser α) := .of fun _ => .refl

instance fail : Heeding (fail : Parser α) := .of fun _ => .refl

instance look : Heeding look := .of fun _ => .refl

instance report (f : Fault) : Heeding (report f) :=
  .of fun _ hp => (State.Heeds.refl hp).congr ⟨rfl, rfl⟩ ⟨rfl, rfl, rfl⟩

instance bind [hp : Heeding p] [∀ a, Heeding (f a)] : Heeding (p >>= f) :=
  .of fun s => (Heeding.at p s).andThen

instance ite {c : Prop} [Decidable c] [Heeding p] [Heeding q] : Heeding (if c then p else q) := by
  split <;> infer_instance

instance withAngled (b : Bool) [Heeding p] : Heeding (withAngled b p) := by
  refine .of fun s hp => ?_
  have h := Heeding.at p { s with angled := b } ⟨hp.sorted, hp.spaced, hp.first⟩
  exact h.congr ⟨rfl, rfl⟩ ⟨rfl, rfl, rfl⟩

theorem loop_heeds {step : β → Parser (Step β γ)} (hstep : ∀ v, Heeding (step v)) (v : β)
    (s : State) : HeedsAt (loop step v) s := by
  intro hp
  induction hk : s.rest.length using Nat.strongRecOn generalizing v s with
  | ind k ih =>
    have h := Heeding.at (step v) s hp
    rw [loop_run]
    rcases hr : (step v).run s with ⟨_ | v' | c, s'⟩ <;> rw [hr] at h
    · exact h
    · dsimp only
      split
      next hlt => exact h.trans (ih _ (hk ▸ hlt) v' s' h.poised rfl)
      next => exact h
    · exact h

instance loop {step : β → Parser (Step β γ)} [hstep : ∀ v, Heeding (step v)] (v : β) :
    Heeding (loop step v) :=
  .of (loop_heeds hstep v)

end Heeding

theorem Heeding.knot {body : (ι → Parser α) → ι → Parser α} [ho : ∀ i, Onward (knot body i)]
    (hbody : ∀ nested, (∀ i, Onward (nested i)) → (∀ i, Heeding (nested i)) →
      ∀ i, Heeding (body nested i)) (i : ι) : Heeding (knot body i) where
  heeds s := by
    induction hk : s.rest.length using Nat.strongRecOn generalizing i s with
    | ind k ih =>
      intro hp
      rw [knot_run]
      refine (hbody _ (fun j => inferInstance) (fun j => ⟨fun s' hp' => ?_⟩) i).heeds s hp
      unfold Parser.below
      dsimp only
      split
      next hlt => exact ih _ (hk ▸ hlt) j s' rfl hp'
      next => exact .refl hp'

end Rules

section Tokens
variable {p : Parser α} {s : State}

theorem State.clear_of_isAtOnLine {k : TokenKind} (h : s.isAtOnLine k = true) : s.Clear :=
  clear_of_onLine (by simp_all [isAtOnLine])

theorem State.clear_of_nameNext (h : s.nameNext = true) : s.Clear := by
  refine clear_of_onLine ?_
  unfold nameNext at h
  unfold onLine
  cases hr : s.rest with
  | nil => simp [hr] at h
  | cons t us => simp_all

namespace Heeding

instance reportExpected (d : String) : Heeding (reportExpected d) := by
  unfold Parser.reportExpected
  infer_instance

instance expected (d : String) : Heeding (expected d : Parser α) := by
  unfold Parser.expected
  infer_instance

instance accept (k : TokenKind) : Heeding (accept k) :=
  .of fun s => .look (.ite (fun h => (HeedsAt.skipOne (s.clear_of_isAtOnLine h)).andThen)
    fun _ => Heeding.at _ s)

instance acceptSymbol (y : Symbol) : Heeding (acceptSymbol y) := accept _

instance acceptKeyword (k : Keyword) : Heeding (acceptKeyword k) := accept _

instance require (k : TokenKind) (d : String) : Heeding (require k d) :=
  .of fun s => .look (.ite (fun h => .next (s.clear_of_isAtOnLine h)) fun _ => Heeding.at _ s)

instance requireSymbol (y : Symbol) : Heeding (requireSymbol y) := require _ _

instance requireKeyword (k : Keyword) : Heeding (requireKeyword k) := require _ _

instance name (d : String) : Heeding (name d) :=
  .of fun s => .look (.ite (fun h => (HeedsAt.next (s.clear_of_nameNext h)).andThen)
    fun _ => Heeding.at _ s)

instance afterKeyword? (k : Keyword) [Heeding p] : Heeding (afterKeyword? k p) := by
  unfold Parser.afterKeyword?
  infer_instance

instance afterComma? [Heeding p] : Heeding (afterComma? p) := by
  unfold Parser.afterComma?
  infer_instance

instance commaList [Heeding p] : Heeding (commaList p) := by
  unfold Parser.commaList Parser.commaStep
  infer_instance

end Heeding

theorem HeedsAt.behind {f : α → Parser β} [∀ a, Heeding (f a)] {t : Token} {us : List Token}
    (hr : s.rest = t :: us) (h : s.Poised → s.Heeds (fun _ => False) (p.run (s.past t us)).2) :
    HeedsAt (skip 1 >>= fun _ => p >>= f) s := by
  intro hp
  have h := h hp
  rw [run_bind_some (run_skip_one hr)]
  rcases hrun : p.run (s.past t us) with ⟨_ | a, s'⟩ <;> rw [hrun] at h
  · rwa [run_bind_none hrun]
  · rw [run_bind_some hrun]
    exact h.trans (Heeding.at (f a) s' h.poised)

/-- An empty list closes on whatever line its parenthesis stands. -/
theorem State.Heeds.closeList [Heeding p] {a : α} {o : Token} {us : List Token} {s' : State}
    (hp : s.Poised) (h : s.Clear) (hr : s.rest = o :: us) (ho : o.kind = .symbol .leftParen)
    (hs : s'.rest = us ∧ s'.comments = s.comments ∧ s'.begun = true) :
    s.Heeds (fun _ => False) ((do
      if ← acceptAnywhere (.symbol .rightParen) then return a else p).run s').2 := by
  cases hat : s'.isAt (.symbol .rightParen) with
  | true =>
    obtain ⟨t, vs, hvs, ht⟩ := State.rest_of_isAt hat
    have hopen : s.rest = o :: t :: vs := by rw [hr, ← hs.1, hvs]
    have hclose : t.Passes [o, t] s.comments := fun _ => .inl (.inr ⟨o, List.infix_rfl, ho, ht⟩)
    have hrun : (acceptAnywhere (.symbol .rightParen)).run s' = (some true, s'.past t vs) := by
      simp only [Parser.acceptAnywhere, run_bind, run_look, hat, if_true, run_skip_one hvs,
        run_pure]
    rw [run_bind_some hrun]
    exact (State.Heeds.pastTwo hp h hopen hclose).congr ⟨rfl, rfl⟩ ⟨rfl, hs.2.1, rfl⟩
  | false =>
    have hrun : (acceptAnywhere (.symbol .rightParen)).run s' = (some false, s') := by
      simp only [Parser.acceptAnywhere, run_bind, run_look, hat, Bool.false_eq_true, if_false,
        run_pure]
    have hpast : s.Heeds (fun _ => False) s' := (State.Heeds.past hp h hr).congr ⟨rfl, rfl⟩ hs
    rw [run_bind_some hrun]
    exact hpast.trans (Heeding.at p s' hpast.poised)

/-- What stands in parentheses, if the line goes on with one. -/
theorem Heeding.afterParen {q : Parser α} [Heeding q]
    (h : ∀ (s : State) (o : Token) us, s.Poised → s.Clear → s.rest = o :: us →
      o.kind = .symbol .leftParen → s.Heeds (fun _ => False) (p.run (s.past o us)).2) :
    Heeding (do if ← Parser.acceptSymbol .leftParen then p else q) := by
  refine .of fun s hp => ?_
  cases hat : s.isAtOnLine (.symbol .leftParen) with
  | true =>
    obtain ⟨o, us, hr, ho, -⟩ := State.rest_of_isAtOnLine hat
    rw [Parser.acceptSymbol, run_bind_some (run_accept_true hr hat)]
    exact h s o us hp (s.clear_of_isAtOnLine hat) hr ho
  | false =>
    rw [Parser.acceptSymbol, run_bind_some (run_accept_false hat)]
    exact Heeding.at q s hp

end Tokens
end Parser

namespace Grammar

/-- The second token of an operator is attached to the first, so both are on the line. -/
theorem infixAt?_onLine {ts : List Token} (hs : ∀ t ∈ ts.tail, t.lineStart = true → t.spaced = true)
    {angled : Bool} {op : BinaryOp} {width : Nat} (h : infixAt? angled ts = some (op, width)) :
    ∃ us vs, ts = us ++ vs ∧ us.length = width ∧ op.Spelling us ∧
      ∀ t ∈ us, t.lineStart = false := by
  obtain ⟨us, vs, rfl, rfl, hspell⟩ := spelling_of_binaryAt? (binaryAt?_of_infixAt? h)
  refine ⟨us, vs, rfl, rfl, hspell, ?_⟩
  have hfirst : ∀ t ∈ us.head?, t.lineStart = false := by
    intro t ht
    obtain ⟨ts, rfl⟩ := List.head?_eq_some_iff.mp ht
    by_contra hl
    simp only [Bool.not_eq_false] at hl
    simp [infixAt?, binaryAt?, hl] at h
  cases hspell with
  | word | mark => simpa using hfirst
  | marks _ _ hu =>
    have hsecond := hs _ (List.mem_append_left _ (List.mem_cons_self ..))
    simp only [hu, Bool.false_eq_true, imp_false, Bool.not_eq_true] at hsecond
    simpa [hsecond] using hfirst

theorem infixAt?_heeds {s : State} (hp : s.Poised) {angled : Bool} {op : BinaryOp} {width : Nat}
    (h : infixAt? angled s.rest = some (op, width)) : HeedsAt (skip width) s := by
  obtain ⟨us, vs, hr, rfl, hspell, hline⟩ := infixAt?_onLine hp.spaced h
  cases hspell with
  | word | mark =>
    exact .skipOne (State.clear_of_onLine (by simpa [State.onLine, hr] using hline))
  | marks =>
    simp only [List.forall_mem_cons] at hline
    exact .skipTwo (State.clear_of_onLine (by simp [State.onLine, hr, hline])) hr hline.2.1

section Nested
variable {nested : AtLevel} [∀ level, Heeding (nested level)] {s : State}

instance chainStep_heeding (level : Nat) (left : Expr) : Heeding (chainStep nested level left) := by
  refine .of fun s => .look fun hp => ?_
  split
  next => exact Heeding.at _ s hp
  next op width h =>
    refine HeedsAt.ite (fun _ => Heeding.at _ s) (fun _ => ?_) hp
    exact (infixAt?_heeds hp h).andThen

instance chain_heeding (level : Nat) (left : Expr) : Heeding (chain nested level left) :=
  Heeding.loop left

theorem arguments_heeds {o : Token} {us : List Token} (hp : s.Poised) (h : s.Clear)
    (hr : s.rest = o :: us) (ho : o.kind = .symbol .leftParen) :
    s.Heeds (fun _ => False) ((arguments nested).run (s.past o us)).2 := by
  let s' : State := { s.past o us with angled := false }
  have hs : s'.rest = us ∧ s'.comments = s.comments ∧ s'.begun = true := ⟨rfl, rfl, rfl⟩
  rw [arguments, run_withAngled]
  exact (State.Heeds.closeList hp h hr ho hs).congr ⟨rfl, rfl⟩ ⟨rfl, rfl, rfl⟩

instance oneOrTwo_heeding : Heeding (oneOrTwo nested) := by
  unfold oneOrTwo
  infer_instance

instance enclosed_heeding (closing : Symbol) : Heeding (enclosed nested closing) := by
  unfold enclosed
  infer_instance

instance subscripts_heeding : Heeding (subscripts nested) := by
  unfold subscripts
  infer_instance

theorem angleSubscripts_heeds (h : s.Clear) : HeedsAt (angleSubscripts nested) s :=
  (HeedsAt.skipOne h).andThen

/-- What is attached to a name is on its line. -/
theorem attachment_onLine {ts : List Token}
    (hs : ∀ t ∈ ts.head?, t.lineStart = true → t.spaced = true) (h : attachment ts ≠ .none) :
    ∀ t ∈ ts.head?, t.lineStart = false := by
  rintro t ht
  obtain ⟨us, rfl⟩ := List.head?_eq_some_iff.mp ht
  have hs := hs t rfl
  by_contra hl
  simp only [Bool.not_eq_false] at hl
  simp [attachment, hl, hs hl] at h

theorem named_heeds (h : s.Clear) : HeedsAt (named nested) s := by
  intro hp
  refine HeedsAt.bind (.next h) (fun t s' hr => ?_) hp
  have hattached : ∀ u ∈ s'.rest.head?, u.lineStart = true → u.spaced = true := by
    cases hrest : s.rest with
    | nil => simp [next, hrest] at hr
    | cons v us =>
      cases (run_next hrest).symm.trans hr
      exact fun u hu => hp.spaced u (by rw [hrest]; exact List.mem_of_mem_head? hu)
  refine .look ?_
  have hclear (h : attachment s'.rest ≠ .none) : s'.Clear :=
    fun u hu => .of_onLine (attachment_onLine hattached h u hu)
  split
  next ha =>
    have hopening := opening_of_attachment s'.rest
    rw [ha] at hopening
    obtain ⟨o, us, hopen, hk⟩ := hopening
    refine HeedsAt.behind hopen fun hp' => ?_
    exact arguments_heeds hp' (hclear (by simp [ha])) hopen hk
  next ha =>
    have hopen : HeedsAt (angleSubscripts nested) s' :=
      angleSubscripts_heeds (hclear (by simp [ha]))
    refine hopen.attempt.bind fun o s₁ _ => ?_
    cases o <;> exact Heeding.at _ s₁
  next ha => exact (HeedsAt.skipOne (hclear (by simp [ha]))).andThen
  next => exact Heeding.at _ s'

theorem cursor_heeds (h : s.Clear) : HeedsAt (cursor nested) s := (HeedsAt.next h).andThen

theorem parenthesized_heeds (h : s.Clear) : HeedsAt (parenthesized nested) s :=
  (HeedsAt.next h).andThen

instance invalidOperand_heeding (t : Token) : Heeding (invalidOperand t) := by
  unfold invalidOperand
  infer_instance

instance primary_heeding : Heeding (primary nested) := by
  refine .of fun s => .look fun hp => ?_
  split
  next => exact Heeding.at _ s hp
  next t us hr =>
    refine HeedsAt.ite (fun _ => Heeding.at _ s) (fun hl => ?_) hp
    have hclear : s.Clear := by
      cases hb : s.begun with
      | false => exact hp.first hb
      | true => exact State.clear_of_onLine (by simpa [State.onLine, hr, hb] using hl)
    have htake {α : Type} (f : Unit → Parser α) [∀ u, Heeding (f u)] : HeedsAt (skip 1 >>= f) s :=
      (HeedsAt.skipOne hclear).andThen
    split
    · exact htake _
    · exact htake _
    · exact htake _
    · exact cursor_heeds hclear
    · exact parenthesized_heeds hclear
    · exact Heeding.at _ s
    · exact named_heeds hclear
    · exact .ite (fun _ => named_heeds hclear) fun _ => Heeding.at _ s

instance operand_heeding : Heeding (operand nested) := by
  refine .of fun s => .look ?_
  split
  next op h =>
    refine (HeedsAt.next fun t ht _ => .inl (.inl ?_)).andThen
    rw [State.kind?, ht] at h
    have h : unaryOf? t.kind = some op := h
    rw [h]
    rfl
  next => exact Heeding.at _ s

instance expressionStep_heeding (level : Nat) : Heeding (expressionStep nested level) := by
  unfold expressionStep
  infer_instance

end Nested

instance expressionAt_heeding (level : Nat) : Heeding (expressionAt level) :=
  have : ∀ level, Onward (knot expressionStep level) := expressionAt_onward
  Heeding.knot (fun _ _ _ _ => inferInstance) level

instance expression_heeding : Heeding expression := expressionAt_heeding 0

instance expression?_heeding : Heeding expression? := by
  unfold expression?
  infer_instance

end Grammar
end PickSyntax
