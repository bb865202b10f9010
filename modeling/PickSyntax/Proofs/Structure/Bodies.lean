import PickSyntax.Proofs.Content.Statement
import PickSyntax.Proofs.Structure.Blocks
import PickSyntax.Proofs.Structure.Clean

/-!
# Reading bodies and branches

A clean run derives what it yields in the grammar of blocks. Here this is shown of the parsers
of item lists, clauses and block statements, for nested statements of which it is known. A body
is only derived when it was closed; where it was not, the parser around it reports that, and
its run is not clean.
-/
namespace PickSyntax.Grammar

open PickSyntax.Parser

/-- A state from which the grammar is read: fewer than `n` tokens are left, they are those of a
source, no comment in front of a token reaches into it, and the flag says whether a body that a
lone `END` closes is open. -/
structure Ready (n : Nat) (inside : Bool) (s : State) : Prop where
  few : s.rest.length < n
  sound : s.Sound
  comments : ∀ c ∈ s.comments, ∀ t ∈ s.rest, c.span.start < t.span.start →
    c.span.stop ≤ t.span.start
  awaits : awaitsEnd s = inside

theorem Ready.reaches {n : Nat} {b : Bool} {s s' : State} (h : Ready n b s) (hr : s.Reaches s') :
    Ready n b s' where
  few := Nat.lt_of_le_of_lt hr.rest.length_le h.few
  sound := by
    obtain ⟨ts, hts⟩ := hr.rest
    constructor
    · intro t ht
      exact h.sound.spelled t (hr.rest.subset ht)
    · exact (hts ▸ h.sound.ordered).append_right
  comments c hc t ht := h.comments c (hr.comments.subset hc) t (hr.rest.subset ht)
  awaits := by rw [← h.awaits, awaitsEnd, hr.blocks, awaitsEnd]

theorem Ready.past {n : Nat} {b : Bool} {s : State} {t : Token} {us : List Token}
    (h : Ready n b s) (hr : s.rest = t :: us) : Ready n b (s.past t us) :=
  h.reaches ⟨Nat.le_refl _, hr ▸ List.suffix_cons t us, List.suffix_rfl, rfl, rfl⟩

/-- A form that begins with the tokens `xs` is being read, and the state has got as far as
this. -/
structure Underway (n : Nat) (inside : Bool) (xs : List Token) (s : State) : Prop where
  ready : Ready n inside s
  rest : s.rest <:+ xs

theorem Underway.reaches {n : Nat} {b : Bool} {xs : List Token} {s s' : State}
    (h : Underway n b xs s) (hr : s.Reaches s') : Underway n b xs s' :=
  ⟨h.ready.reaches hr, hr.rest.trans h.rest⟩

/-- Reading on past something of which nothing needs to be known. -/
theorem Underway.past {α β : Type} {n : Nat} {b : Bool} {xs : List Token} {s : State}
    {p : Parser α} {f : α → Parser β} {Q : β → State → Prop} [Onward p] [∀ a, Onward (f a)]
    (h : Underway n b xs s) (hf : ∀ a s', Underway n b xs s' → Clean (f a) s' Q) :
    Clean (p >>= f) s Q :=
  .past fun a s' hr => hf a s' (h.reaches hr)

/-- A statement that begins where fewer than `n` tokens are left derives what it yields. -/
def Nested (n : Nat) : Prop :=
  ∀ {b : Bool} {s : State}, Ready n b s →
    Clean statement s fun st s' => Derived b s.rest s'.rest (.statement st)

theorem rest_of_atLoneEnd {s : State} (h : s.atLoneEnd = true) :
    ∃ t us, s.rest = t :: us ∧ LoneEnd t us := by
  simp only [State.atLoneEnd, Bool.and_eq_true, Bool.not_eq_true'] at h
  obtain ⟨t, us, hr, hk⟩ := State.rest_of_isAt h.1
  refine ⟨t, us, hr, hk, ?_⟩
  intro u hu hl hc
  cases us with
  | nil => cases hu
  | cons v vs =>
    cases hu
    simp [State.isBeforeKeyword, hr, hl, hc] at h

theorem atLoneEnd_of_rest {s : State} {t : Token} {us : List Token} (hr : s.rest = t :: us)
    (h : LoneEnd t us) : s.atLoneEnd = true := by
  have hk := h.kind
  have hl := h.lone
  cases us with
  | nil => simp [State.atLoneEnd, State.isAt, State.kind?, State.isBeforeKeyword, hr, hk]
  | cons u us =>
    have := hl u rfl
    cases hline : u.lineStart <;>
      simp_all [State.atLoneEnd, State.isAt, State.kind?, State.isBeforeKeyword]

theorem rest_of_atEndCase {s : State} (h : s.atEndCase = true) :
    ∃ t u us, s.rest = t :: u :: us ∧ t.kind = .keyword .END ∧ u.kind = .keyword .CASE ∧
      u.lineStart = false := by
  simp only [State.atEndCase, Bool.and_eq_true] at h
  obtain ⟨t, us, hr, hk⟩ := State.rest_of_isAt h.1
  cases us with
  | nil => simp [State.isBeforeKeyword, hr] at h
  | cons u us =>
    simp only [State.isBeforeKeyword, hr, Bool.and_eq_true, Bool.not_eq_true', beq_iff_eq] at h
    exact ⟨t, u, us, hr, hk, h.2.2, h.2.1⟩

/-- The token at which a body of the block ends. -/
theorem rest_of_closes_block {s : State} {block : Block} (h : closes s block = true) :
    ∃ t us, s.rest = t :: us ∧ match block with
      | .thenBody => t.kind = .keyword .ELSE ∨ s.atLoneEnd = true
      | .elseBody => s.atLoneEnd = true
      | .forBody => t.kind = .keyword .NEXT
      | .loopBefore => t.kind = .keyword .WHILE ∨ t.kind = .keyword .UNTIL ∨ t.kind = .keyword .REPEAT
      | .loopAfter => t.kind = .keyword .REPEAT
      | .caseBody => t.kind = .keyword .CASE ∨ s.atEndCase = true := by
  unfold closes at h
  split at h
  next k hk =>
    obtain ⟨t, us, hr, ht⟩ := State.rest_of_isAt (s := s) (k := .keyword k) (by simp [State.isAt, hk])
    refine ⟨t, us, hr, ?_⟩
    cases block <;> simp_all [or_assoc]
  next => cases h

theorem closes_of_atLoneEnd {s : State} {block : Block} (h : s.atLoneEnd = true)
    (hb : (block == .thenBody || block == .elseBody) = true) : closes s block = true := by
  obtain ⟨t, us, hr, hend⟩ := rest_of_atLoneEnd h
  have hk : s.kind? = some (.keyword .END) := by simp [State.kind?, hr, hend.kind]
  cases block <;> simp_all [closes]

/-- Where a body that a lone `END` closes is open, and no open block ends here, no lone `END`
is next. -/
theorem not_atLoneEnd {s : State} (hb : awaitsEnd s = true) (h : closesAny s s.blocks = false) :
    s.atLoneEnd = false := by
  cases he : s.atLoneEnd with
  | false => rfl
  | true =>
    obtain ⟨block, hmem, hblock⟩ := List.any_eq_true.mp hb
    have hno := List.any_eq_false.mp h block hmem
    exact absurd (closes_of_atLoneEnd he hblock) hno

/-- A lone `END` that derives a statement is all of it. -/
theorem loneEnd_of_endUnit {b : Bool} {xs ys : List Token} {st : Statement}
    (h : Derived b xs ys (.statement st)) (hf : st.form = .endUnit) :
    ∃ t, xs = t :: ys ∧ LoneEnd t ys := by
  cases h with
  | statement h _ =>
    cases hf
    cases h with
    | endUnit hend => exact ⟨_, rfl, hend⟩
    | attached ha => cases ha

section Reading
variable {n : Nat} {b : Bool} {s : State} {xs : List Token}

theorem endStatement_clean_run {left : Nat} :
    Clean (endStatement left) s fun _ s' => s' = s :=
  .look (.ite (fun _ => .pure rfl) fun _ => .bind .reportExpected)

theorem pending_apart (hs : Ready n b s) :
    ∀ c ∈ s.comments.takeWhile s.isPending, ∀ t ∈ s.rest, c.span.stop ≤ t.span.start := by
  intro c hc t ht
  have hmem := (List.takeWhile_prefix _).subset hc
  have hpending := List.mem_takeWhile_imp hc
  apply hs.comments c hmem t ht
  unfold State.isPending at hpending
  cases hr : s.rest with
  | nil =>
    rw [hr] at ht
    cases ht
  | cons u us =>
    have hle := hs.sound.ordered.head_start_le (u := u) (by rw [hr]; rfl) ht
    rw [hr] at hpending
    have := of_decide_eq_true hpending
    omega

/-- The comments taken before the next token end before it. -/
theorem commentItems_clean (hs : Ready n b s) :
    Clean commentItems s fun items s' => Ready n b s' ∧ s'.rest = s.rest ∧ s'.blocks = s.blocks ∧
      ∃ cs : List Comment, items = cs.map Item.comment ∧
        ∀ c ∈ cs, ∀ t ∈ s.rest, c.span.stop ≤ t.span.start := by
  intro items s' hr _
  have hreach := commentItems_onward.reaches s
  cases hr
  exact ⟨hs.reaches hreach, rfl, rfl, _, rfl, pending_apart hs⟩

variable (hn : Nested n)
include hn

theorem item_clean (hs : Ready n b s) (hend : b = true → s.atLoneEnd = false) :
    Clean (item statement) s fun o s' => ∃ i, o = some i ∧ ∀ xs is,
      Derived b xs s.rest (.items is) → Derived b xs s'.rest (.items (is ++ [i])) := by
  refine .look ?_
  cases hl : label? s with
  | some l =>
    obtain ⟨t, us, hr, hk, rfl⟩ := rest_of_label? hl
    refine .bind (.skipOne hr fun _ => .pure ⟨_, rfl, fun xs is h => ?_⟩)
    rw [hr] at h
    exact .label h hk
  | none =>
    refine .bind_of (fun _ => @Onward.bind _ _ _ _ inferInstance fun o => ?_)
      fun _ s₁ hr _ hreach => ?_
    · cases o <;> infer_instance
    have hs₁ := hs.reaches hreach
    cases hr
    refine .bind_of (fun o => by cases o <;> infer_instance) (.catchFailure (fun s₂ hfail => ?_) ((hn hs₁).mono fun st s₂ hst _ => ?_))
    · obtain ⟨⟨ts, cs, hb⟩, hne⟩ := statement_none hs₁.sound hfail
      have hkept := hb.went.faults
      exact Nat.lt_of_le_of_ne hkept.length_le fun he => hne (hkept.eq_of_length he).symm
    · refine .bind (endStatement_clean_run.mono fun _ s₃ hsame _ => .pure ⟨_, rfl, fun xs is h => ?_⟩)
      subst hsame
      refine .item h hst fun hb hf => ?_
      obtain ⟨t, hr, hlone⟩ := loneEnd_of_endUnit hst hf
      exact absurd (atLoneEnd_of_rest (s := s) hr hlone) (by simp [hend hb])

/-- One more round of a body: what the block has so far is derived from `xs` on. -/
theorem bodyStep_clean {block : Block} {blocks : List Block} {items : List Item}
    (hs : Ready n b s) (hblocks : s.blocks = block :: blocks)
    (hi : Derived b xs s.rest (.items items)) :
    Clean (bodyStep statement block items) s fun r s' => s.Reaches s' →
      r.Says (fun items => Ready n b s' ∧ s'.blocks = block :: blocks ∧
          Derived b xs s'.rest (.items items))
        fun c => c.2 = .closed → closes s' block = true ∧ Derived b xs s'.rest (.items c.1) := by
  refine .bind ((commentItems_clean hs).mono ?_)
  rintro _ s₁ ⟨hs₁, hrest, hblocks₁, cs, rfl, hcs⟩ h₁
  have hi : Derived b xs s₁.rest (.items (items ++ cs.map Item.comment)) := by
    rw [hrest]
    exact hi.comments hcs
  rw [hblocks] at hblocks₁
  refine .bind (.acceptAnywhere (fun t us hr hk h₂ => ?_) fun _ => ?_)
  · rw [hr] at hi
    exact .pure fun _ => ⟨hs₁.past hr, hblocks₁, hi.separator hk⟩
  · refine .look (.ite (fun _ => .pure fun _ => nofun) fun _ => ?_)
    refine .ite (fun hc => .pure fun _ _ => ⟨hc, hi⟩) fun hc => .enclosing hblocks₁ ?_
    refine .ite (fun _ => .pure fun _ => nofun) fun hany => ?_
    have hend : b = true → s₁.atLoneEnd = false := by
      intro hb
      apply not_atLoneEnd (hs₁.awaits.trans hb)
      rw [hblocks₁]
      simp only [closesAny, List.any_cons] at hany ⊢
      simp [hc, hany]
    refine .bind ((item_clean hn hs₁ hend).mono ?_)
    rintro _ s₂ ⟨i, rfl, hitem⟩ h₂
    exact .pure fun _ => ⟨hs₁.reaches h₂, h₂.blocks.trans hblocks₁, hitem _ _ hi⟩

/-- A body that was closed is derived, and its terminator is next. -/
theorem body_clean (block : Block) {inner : Bool} (hs : Ready n b s)
    (hinner : (block == .thenBody || block == .elseBody || b) = inner) :
    Clean (body statement block) s fun r s' => r.2 = .closed →
      closes s' block = true ∧ Derived inner s.rest s'.rest (.items r.1) := by
  intro r s' hr hf
  rw [body, run_inBlock] at hr
  have hs₁ : Ready n inner { s with blocks := block :: s.blocks } :=
    ⟨hs.few, ⟨hs.sound.spelled, hs.sound.ordered⟩, hs.comments, by
      rw [← hinner, ← hs.awaits, awaitsEnd, List.any_cons, awaitsEnd]⟩
  have hloop : Clean (loop (bodyStep statement block) []) { s with blocks := block :: s.blocks }
      fun c s' => c.2 = .closed → closes s' block = true ∧ Derived inner s.rest s'.rest (.items c.1) :=
    Clean.loop (I := fun items s' => Ready n inner s' ∧ s'.blocks = block :: s.blocks ∧
      Derived inner s.rest s'.rest (.items items))
      (fun items s' hi => bodyStep_clean hn hi.1 hi.2.1 hi.2.2) ⟨hs₁, rfl, .nil⟩
  rcases hl : (loop (bodyStep statement block) []).run { s with blocks := block :: s.blocks }
    with ⟨_ | c, s₁⟩ <;> rw [hl] at hr <;> cases hr
  exact hloop _ s₁ hl hf

theorem clauseStatement_clean (hs : Ready n b s) :
    Clean (clauseStatement statement) s fun st s' => (∀ u ∈ s.rest.head?, u.lineStart = false) ∧
      Derived b s.rest s'.rest (.statement st) := by
  refine .look (.ite (fun hl => ?_) fun _ => .expected)
  have hline : ∀ u ∈ s.rest.head?, u.lineStart = false := by
    intro u hu
    obtain ⟨us, hr⟩ := List.head?_eq_some_iff.mp hu
    simpa [State.onLine, hr] using hl
  refine .bind fun _ s₁ hr _ h₁ => ?_
  have hs₁ := hs.reaches h₁
  cases hr
  exact (hn hs₁).mono fun st s₂ hst => ⟨hline, hst⟩

theorem onErrorClause_clean (hs : Ready n b s) :
    Clean (onErrorClause statement) s fun o s' => Derived b s.rest s'.rest (.single o) := by
  refine .look (.ite (fun h => ?_) fun _ => .pure .noSingle)
  rw [Bool.and_eq_true] at h
  obtain ⟨t, us, hr, -, -⟩ := State.rest_of_isAtOnLine h.1
  obtain ⟨u, vs, rfl, hu⟩ := rest_of_isBeforeKeyword hr h.2
  refine .bind (.skipTwo hr fun h₁ => ?_)
  refine .bind ((clauseStatement_clean hn (hs.reaches h₁)).mono fun st s₂ hst _ => .pure ?_)
  exact .single (hr ▸ List.suffix_cons t _) ⟨⟨.ERROR, by simp, hu⟩, hst.1⟩ hst.2

theorem lockedClause_clean (hs : Ready n b s) :
    Clean (lockedClause statement) s fun o s' => Derived b s.rest s'.rest (.single o) := by
  refine .bind (.accept (fun t us hr hk h₁ => ?_) fun _ => .pure .noSingle)
  refine .bind ((clauseStatement_clean hn (hs.reaches h₁)).mono fun st s₂ hst _ => .pure ?_)
  exact .single (hr ▸ List.suffix_rfl) ⟨⟨.LOCKED, by simp, hk⟩, hst.1⟩ hst.2

variable {owner : Owner}

theorem elseBlock_clean (hs : Ready n b s) :
    Clean (elseBlock statement owner) s fun is s' => ∃ t, Derived true s.rest (t :: s'.rest) (.items is) ∧
      LoneEnd t s'.rest := by
  refine .bind ((body_clean hn .elseBody hs rfl).mono fun r s₁ hbody h₁ => ?_)
  obtain ⟨is, stop⟩ := r
  cases stop with
  | closed =>
    obtain ⟨hc, hbody⟩ := hbody rfl
    obtain ⟨_, _, _, hend⟩ := rest_of_closes_block hc
    obtain ⟨t, us, hr, hlone⟩ := rest_of_atLoneEnd hend
    rw [hr] at hbody
    exact .bind (.skipOne hr fun _ => .pure ⟨t, hbody, hlone⟩)
  | interrupted | exhausted => exact .bind .report

theorem elseBranch_clean (hs : Ready n b s) {t : Token} (ht : t.kind = .keyword .ELSE) :
    Clean (elseBranch statement owner) s fun r s' =>
      Derived b (t :: s.rest) s'.rest (.branch r.1 r.2) := by
  refine .look (.ite (fun _ => ?_) fun _ => ?_)
  · refine .bind ((clauseStatement_clean hn hs).mono fun st s₁ hst _ => .pure ?_)
    exact .elseInline ⟨⟨.ELSE, by simp, ht⟩, hst.1⟩ hst.2
  · refine .bind ((elseBlock_clean hn hs).mono fun is s₁ his _ => .pure ?_)
    obtain ⟨u, his, hlone⟩ := his
    exact .elseBlock ht his hlone

omit hn in
theorem closeInline_clean {c : Clause} : Clean (closeInline c) s fun c' s' =>
    ∃ layout, c' = { c with layout := layout } ∧ Closed s.rest s'.rest c.layout layout := by
  refine .look (.ite (fun h => ?_) fun _ => .pure ⟨c.layout, by cases c; rfl, .asIs⟩)
  simp only [Bool.and_eq_true, beq_iff_eq] at h
  obtain ⟨t, us, hr, hlone⟩ := rest_of_atLoneEnd h.1.2
  refine .bind (.skipOne hr fun _ => .pure ⟨_, rfl, ?_⟩)
  rw [hr, h.1.1]
  exact .byEnd hlone

theorem thenBlock_clean (hs : Ready n b s) {t : Token} (ht : t.kind = .keyword .THEN) :
    Clean (thenBlock statement owner) s fun c s' =>
      Derived b (t :: s.rest) s'.rest (.clause (some c)) := by
  refine .bind ((body_clean hn .thenBody hs rfl).mono fun r s₁ hbody h₁ => ?_)
  have hs₁ := hs.reaches h₁
  obtain ⟨is, stop⟩ := r
  cases stop with
  | closed =>
    obtain ⟨hc, hbody⟩ := hbody rfl
    refine .look (.ite (fun hend => ?_) fun hend => ?_)
    · obtain ⟨u, us, hr, hlone⟩ := rest_of_atLoneEnd hend
      rw [hr] at hbody
      refine .bind (.skipOne hr fun h₂ => ?_)
      have hs₂ := hs₁.reaches h₂
      refine .bind (.accept (fun v vs hr' hv h₃ => ?_) fun _ => .pure (.thenBlock ht hbody hlone))
      refine .bind ((elseBranch_clean hn (hs₂.reaches h₃) hv).mono fun r s₄ hbranch _ => .pure ?_)
      obtain rfl : us = v :: vs := hr'
      exact .thenBlockEndElse ht hbody hlone hbranch
    · obtain ⟨u, us, hr, hu⟩ := rest_of_closes_block hc
      obtain hu := hu.resolve_right hend
      rw [hr] at hbody
      refine .bind (.skipOne hr fun h₂ => ?_)
      refine .bind ((elseBlock_clean hn (hs₁.reaches h₂)).mono fun js s₃ hjs _ => .pure ?_)
      obtain ⟨v, hjs, hlone⟩ := hjs
      exact .thenBlockElse ht hbody hu hjs hlone
  | interrupted | exhausted => exact .bind .report

theorem thenInline_clean (hs : Ready n b s) {t : Token} (ht : t.kind = .keyword .THEN) :
    Clean (thenInline statement owner) s fun c s' =>
      Derived b (t :: s.rest) s'.rest (.clause (some c)) := by
  refine .bind ((clauseStatement_clean hn hs).mono fun st s₁ hst h₁ => ?_)
  have hleads : Leads [.THEN] t s.rest := ⟨⟨.THEN, by simp, ht⟩, hst.1⟩
  refine .bind (.accept (fun u us hr hu h₂ => ?_) fun _ => ?_)
  · refine .bind ((elseBranch_clean hn ((hs.reaches h₁).reaches h₂) hu).mono fun r s₃ hr' _ => ?_)
    refine closeInline_clean.mono fun c s₄ hc => ?_
    obtain ⟨layout, rfl, hclosed⟩ := hc
    exact .thenInlineElse hleads hst.2 (hr ▸ hr') hclosed
  · refine closeInline_clean.mono fun c s₂ hc => ?_
    obtain ⟨layout, rfl, hclosed⟩ := hc
    exact .thenInline hleads hst.2 hclosed

theorem clause?_clean (hs : Ready n b s) :
    Clean (clause? statement owner) s fun o s' => Derived b s.rest s'.rest (.clause o) := by
  refine .bind (.accept (fun t us hr ht h₁ => ?_) fun _ => ?_)
  · have hs₁ := hs.reaches h₁
    rw [hr]
    refine .look (.ite (fun _ => ?_) fun _ => ?_)
    · exact .bind ((thenInline_clean hn hs₁ ht).mono fun c s₂ hc _ => .pure hc)
    · exact .bind ((thenBlock_clean hn hs₁ ht).mono fun c s₂ hc _ => .pure hc)
  · refine .bind (.accept (fun t us hr ht h₁ => ?_) fun _ => .pure .noClause)
    rw [hr]
    refine .bind ((elseBranch_clean hn (hs.reaches h₁) ht).mono fun r s₂ hbranch _ => ?_)
    refine .bind (closeInline_clean.mono fun c s₃ hc _ => .pure ?_)
    obtain ⟨layout, rfl, hclosed⟩ := hc
    exact .elseOnly hbranch hclosed

theorem requiredClause_clean (hs : Ready n b s) :
    Clean (requiredClause statement owner) s fun c s' =>
      Derived b s.rest s'.rest (.clause (some c)) := by
  refine .bind_of (fun o => by cases o <;> infer_instance) ((clause?_clean hn hs).mono fun o s₁ ho _ => ?_)
  cases o with
  | some c => exact .pure ho
  | none => exact .look (.bind .report)

omit hn in
theorem nextName_clean {t : Token} {us : List Token} (hr : s.rest = t :: us) :
    Clean nextName s fun o s' => NextName us s'.rest o := by
  refine .bind (.skipOne hr fun _ => .look (.ite (fun h => ?_) fun _ => .pure .absent))
  obtain ⟨u, vs, hr', hu⟩ := State.rest_of_nameNext h
  obtain rfl : us = u :: vs := hr'
  exact .bind (.next rfl fun _ => .pure (.named hu))

theorem forNext_clean {opener : Token} (h : Underway n b xs s) :
    Clean (forNext statement opener) s fun f s' => Derived b xs s'.rest (.form f) := by
  refine h.past fun counter s h => h.past fun _ s h => h.past fun start s h => ?_
  refine h.past fun _ s h => h.past fun limit s h => h.past fun step s h => ?_
  refine h.past fun guard s h => ?_
  refine .bind ((body_clean hn .forBody h.ready rfl).mono fun r s₁ hbody _ => ?_)
  obtain ⟨body, stop⟩ := r
  cases stop with
  | closed =>
    obtain ⟨hc, hbody⟩ := hbody rfl
    obtain ⟨t, us, hr, ht⟩ := rest_of_closes_block hc
    rw [hr] at hbody
    refine .bind ((nextName_clean hr).mono fun name s₂ hname _ => .pure ?_)
    exact .forNext h.rest hbody ht hname
  | interrupted | exhausted => exact .bind .report

omit hn in
theorem closeBlock_clean {d : String} {stop : BodyEnd} {Q : Unit → State → Prop}
    (h : stop = .closed → Clean (skip 1) s Q) : Clean (closeBlock owner d stop) s Q := by
  cases stop with
  | closed => exact h rfl
  | interrupted | exhausted => exact .report

theorem loopRest_clean {sense : GuardSense} (hs : Ready n b s) :
    Clean (loopRest statement owner sense) s fun r s' => ∃ t ws, ws <:+ s.rest ∧
      Derived b ws (t :: s'.rest) (.items r.2) ∧ t.kind = .keyword .REPEAT := by
  have h : Underway n b s.rest s := ⟨hs, List.suffix_rfl⟩
  refine h.past fun guard s h => h.past fun _ s h => ?_
  refine .bind ((body_clean hn .loopAfter h.ready rfl).mono fun r s₁ hbody _ => ?_)
  obtain ⟨body, stop⟩ := r
  refine .bind (closeBlock_clean fun hstop => ?_)
  obtain ⟨hc, hbody⟩ := hbody hstop
  obtain ⟨t, us, hr, ht⟩ := rest_of_closes_block hc
  rw [hr] at hbody
  exact .skipOne hr fun _ => .pure ⟨t, _, h.rest, hbody, ht⟩

omit hn in
theorem repeat_of_no_guard {t : Token} {us : List Token} (hr : s.rest = t :: us)
    (hg : guardSense? s = none) (ht : t.kind = .keyword .WHILE ∨ t.kind = .keyword .UNTIL ∨
      t.kind = .keyword .REPEAT) : t.kind = .keyword .REPEAT := by
  obtain ht | ht | ht := ht
  · simp [guardSense?, State.kind?, hr, ht] at hg
  · simp [guardSense?, State.kind?, hr, ht] at hg
  · exact ht

theorem loopRepeat_clean {opener : Token} (h : Underway n b xs s) :
    Clean (loopRepeat statement opener) s fun f s' => Derived b xs s'.rest (.form f) := by
  refine .bind_of (fun r => ?_) ((body_clean hn .loopBefore h.ready rfl).mono fun r s₁ hbody h₁ => ?_)
  · refine @Onward.ite _ _ _ _ _ ?_ inferInstance
    refine @Onward.bind _ _ _ _ inferInstance fun s => ?_
    cases guardSense? s <;> infer_instance
  obtain ⟨before, stop⟩ := r
  cases stop with
  | closed =>
    obtain ⟨hc, hbody⟩ := hbody rfl
    obtain ⟨t, us, hr, ht⟩ := rest_of_closes_block hc
    refine .look ?_
    cases hg : guardSense? s₁ with
    | some sense =>
      refine .bind ((loopRest_clean hn (h.reaches h₁).ready).mono fun r s₂ hrest _ => .pure ?_)
      obtain ⟨u, ws, hws, hafter, hu⟩ := hrest
      exact .loopGuarded h.rest hbody hws hafter hu
    | none =>
      rw [hr] at hbody
      exact .bind (.skipOne hr fun _ => .pure (.loop h.rest hbody (repeat_of_no_guard hr hg ht)))
  | interrupted | exhausted => exact .bind .report

omit hn in
theorem expression_fails {s' : State} (h : expression.run s = (none, s')) :
    s.faults.length < s'.faults.length := by
  obtain ⟨_, _, hmeets⟩ := expressionAt_meets 0 s
  rw [show (expressionAt 0).run s = _ from h] at hmeets
  obtain ⟨f, hf⟩ := hmeets
  rw [show s'.faults = s.faults ++ [f] from hf, List.length_append]
  exact Nat.lt_succ_self _

theorem caseArm_clean {leading : List Item} {t : Token} {us : List Token} (hs : Ready n b s)
    (hr : s.rest = t :: us) : Clean (caseArm statement leading) s fun r s' => r.2 = .closed →
      ∃ condition is span vs, r.1 = some ⟨condition, leading ++ is, span⟩ ∧ vs <:+ us ∧
        Derived b vs s'.rest (.items is) := by
  refine .bind (.next hr fun h₁ => ?_)
  refine .bind (.orSkip (fun _ => expression_fails) (.of_reaches fun c s₂ h₂ h₂' => ?_))
  refine .bind ((body_clean hn .caseBody (hs.reaches (h₁.trans h₂)) rfl).mono
    fun r s₃ hbody h₃ => .look (.pure fun hstop => ?_))
  exact ⟨c, r.1, _, _, rfl, h₂.rest, (hbody hstop).2⟩

/-- One more round of a `BEGIN CASE`, with the comments that wait for the next clause. -/
structure CasesReady (n : Nat) (b : Bool) (xs : List Token) (p : CaseProgress) (s : State) :
    Prop where
  ready : Ready n b s
  leading : ∃ cs : List Comment, p.leading = cs.map Item.comment ∧
    ∀ c ∈ cs, ∀ t ∈ s.rest, c.span.stop ≤ t.span.start
  cases : Derived b xs s.rest (.cases p.cases)

theorem caseArmStep_clean {p : CaseProgress} {t : Token} {us : List Token}
    (hp : CasesReady n b xs p s) (hr : s.rest = t :: us) (ht : t.kind = .keyword .CASE)
    {Q : List CaseArm → State → Prop} : Clean (caseArmStep statement owner p) s fun r s' =>
      r.Says (CasesReady n b xs · s') (Q · s') := by
  refine .bind_of (fun r => ?_) ((caseArm_clean hn hp.ready hr).mono fun r s₁ harm h₁ => ?_)
  · obtain ⟨_, _ | _ | _⟩ := r <;> infer_instance
  obtain ⟨arm, stop⟩ := r
  cases stop with
  | closed =>
    obtain ⟨condition, is, span, vs, rfl, hvs, his⟩ := harm rfl
    obtain ⟨cs, hcs, hapart⟩ := hp.leading
    have hcases := hp.cases
    rw [hr] at hcases
    refine .pure ⟨hp.ready.reaches h₁, ⟨[], rfl, nofun⟩, ?_⟩
    rw [hcs]
    exact .case hcases ht hvs his fun c hc u hu => hapart c hc u (h₁.rest.subset hu)
  | interrupted | exhausted => exact .bind .report

theorem caseStep_clean {p : CaseProgress} (hp : CasesReady n b xs p s) :
    Clean (caseStep statement owner p) s fun r s' => r.Says (CasesReady n b xs · s')
      fun cases => ∃ t u, Derived b xs (t :: u :: s'.rest) (.cases cases) ∧
        t.kind = .keyword .END ∧ u.kind = .keyword .CASE ∧ u.lineStart = false := by
  obtain ⟨held, hheld, hapart⟩ := hp.leading
  refine .bind ((commentItems_clean hp.ready).mono ?_)
  rintro _ s₁ ⟨hs₁, hrest, -, cs, rfl, hcs⟩ h₁
  have hcases := hp.cases
  rw [← hrest] at hcases hapart hcs
  have hp₁ : CasesReady n b xs ⟨p.leading ++ cs.map Item.comment, p.cases⟩ s₁ :=
    ⟨hs₁, ⟨held ++ cs, by rw [hheld, List.map_append], fun c hc =>
      (List.mem_append.mp hc).elim (hapart c) (hcs c)⟩, hcases⟩
  refine .bind (.acceptAnywhere (fun t us hr hk h₂ => .pure ?_) fun _ => ?_)
  · obtain ⟨held, hheld, hapart⟩ := hp₁.leading
    rw [hr] at hcases hapart
    exact ⟨hs₁.past hr, ⟨held, hheld, fun c hc u hu => hapart c hc u (List.mem_cons_of_mem _ hu)⟩,
      hcases.caseSeparator hk⟩
  · refine .look (.ite (fun _ => .bind .report) fun _ => .ite (fun hend => ?_) fun _ => ?_)
    · obtain ⟨t, u, us, hr, ht, hu, hl⟩ := rest_of_atEndCase hend
      rw [hr] at hcases
      exact .bind (.skipTwo hr fun _ => .pure ⟨t, u, hcases, ht, hu, hl⟩)
    · refine .ite (fun hcase => ?_) fun _ => .ite (fun _ => .bind .report) fun _ => ?_
      · obtain ⟨t, us, hr, ht⟩ := State.rest_of_isAt hcase
        exact caseArmStep_clean hn hp₁ hr ht
      · exact .past fun _ _ _ => .bind .reportExpected

theorem beginCase_clean {opener : Token} (h : Underway n b xs s) :
    Clean (beginCase statement opener) s fun f s' => Derived b xs s'.rest (.form f) := by
  refine h.past fun word s h => ?_
  have hloop : Clean (caseArms statement ⟨"BEGIN CASE", opener.span.merge word.span⟩) s
      fun cases s' => ∃ t u, Derived b s.rest (t :: u :: s'.rest) (.cases cases) ∧
        t.kind = .keyword .END ∧ u.kind = .keyword .CASE ∧ u.lineStart = false :=
    Clean.loop (I := CasesReady n b s.rest) (fun p s' hp => (caseStep_clean hn hp).mono
      fun _ _ h _ => h) ⟨h.ready, ⟨[], rfl, nofun⟩, .noCase⟩
  refine .bind (hloop.mono fun cases s' hcases _ => .pure ?_)
  obtain ⟨t, u, hcases, ht, hu, hl⟩ := hcases
  exact .beginCase h.rest hcases ht hu hl

end Reading

end PickSyntax.Grammar
