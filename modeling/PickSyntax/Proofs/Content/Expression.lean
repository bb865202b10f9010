import PickSyntax.Proofs.Content.Overlay
import PickSyntax.Proofs.Expression.Climbing

/-!
# Ranges of expressions

Every parser of expressions lays the extents of what it yields over the tokens it takes. The
ranges come about in three ways: an infix node merges those of its operands, a sign ends with
its operand, and whatever ends in a bracket ends with the last token consumed. That all three
are the range from the first token to the last is where the order of the tokens comes in.
-/
namespace PickSyntax.Grammar

open PickSyntax.Parser

/-- The extents of the expressions lie over the tokens, if those stand in order. -/
def Over (ts : List Token) (es : List Expr) : Prop :=
  ∀ offset, Ordered offset ts → Overlay ts (Expr.extents es)

/-- The expression reaches from the first of the tokens to the last, and its parts lie over
them. -/
def Exact (ts : List Token) (e : Expr) : Prop :=
  ∃ t us u, ts = t :: us ∧ ts.getLast? = some u ∧ ∀ offset, Ordered offset ts →
    e.span = ⟨t.span.start, u.span.stop⟩ ∧ Overlay ts e.extent.parts

variable {s s' : State} {t u : Token} {ts us vs ws : List Token} {e : Expr} {es fs : List Expr}

theorem Over.cons (h : Over ts es) : Over (t :: ts) es :=
  fun offset ho => (h offset ho.tail).cons

theorem Over.append (h : Over ts es) (k : Over us fs) : Over (ts ++ us) (es ++ fs) := by
  intro offset ho
  rw [Expr.extents_append]
  exact (h offset ho.append_left).append (k offset ho.append_right)

instance : Listable Over where
  nothing _ _ := .bare
  comma h _ _ he := h.append he.cons

theorem Expr.extent_span (e : Expr) : e.extent.span = e.span := by
  cases e <;> rfl

theorem Exact.over (h : Exact ts e) : Over ts [e] := by
  obtain ⟨t, us, u, rfl, hu, h⟩ := h
  intro offset ho
  obtain ⟨hs, hp⟩ := h offset ho
  have he : e.extent = ⟨⟨t.span.start, u.span.stop⟩, e.extent.parts⟩ := by
    rw [← hs, ← Expr.extent_span]
    cases e.extent
    rfl
  rw [Expr.extents, Expr.extents, he]
  exact .node hu hp

/-- An operand of one token. -/
theorem Exact.token (hs : e.span = t.span) (hp : e.extent.parts = []) : Exact [t] e :=
  ⟨t, [], t, rfl, rfl, fun _ _ => ⟨hs, hp ▸ .bare⟩⟩

/-- A node from its first token to the last one consumed, which closes it. -/
theorem Exact.closed {c : Token} (h : Over ws es)
    (hs : e.span = ⟨t.span.start, max c.span.stop t.span.start⟩)
    (hp : e.extent.parts = Expr.extents es) : Exact (t :: (us ++ (ws ++ [c]))) e := by
  have hc : (t :: (us ++ (ws ++ [c]))).getLast? = some c := by
    rw [← List.append_assoc, ← List.cons_append, List.getLast?_concat]
  refine ⟨t, us ++ (ws ++ [c]), c, rfl, hc, fun offset ho => ⟨?_, ?_⟩⟩
  · rw [hs, Nat.max_eq_left (ho.start_le_stop hc)]
  · rw [hp]
    exact ((h offset ho.tail.append_right.append_left).behind.before).cons

theorem Exact.unary {op : UnaryOp} (h : Exact ts e) :
    Exact (t :: ts) (.unary op e ⟨t.span.start, e.span.stop⟩) := by
  have hover := h.over.cons (t := t)
  obtain ⟨t', us, u, rfl, hu, h⟩ := h
  refine ⟨t, _, u, rfl, by rwa [List.getLast?_cons_cons], fun offset ho => ⟨?_, hover offset ho⟩⟩
  rw [(h offset ho.tail).1]
  rfl

theorem Exact.binary {left right : Expr} {op : BinaryOp} (hl : Exact ts left)
    (hr : Exact vs right) :
    Exact (ts ++ (us ++ vs)) (.binary left op right (left.span.merge right.span)) := by
  have hover (offset : Nat) (ho : Ordered offset (ts ++ (us ++ vs))) :
      Overlay (ts ++ (us ++ vs)) [left.extent, right.extent] :=
    (hl.over offset ho.append_left).append (hr.over offset ho.append_right.append_right).before
  obtain ⟨t, ts, w, rfl, hw, hl⟩ := hl
  obtain ⟨v, vs, u, rfl, hu, hr⟩ := hr
  have hlast : (t :: ts ++ (us ++ v :: vs)).getLast? = some u := by
    rw [List.getLast?_append, List.getLast?_append, hu]
    rfl
  refine ⟨t, ts ++ (us ++ v :: vs), u, rfl, hlast, fun offset ho => ⟨?_, hover offset ho⟩⟩
  -- The tokens of the left operand stand before those of the right one.
  have hls := (hl offset ho.append_left).1
  have hrs := (hr offset ho.append_right.append_right).1
  have hstart := ho.head_start_le (u := t) (t := v) rfl (by simp)
  have hstop := ho.stop_le_getLast (t := w) hlast
    (List.mem_append_left _ (List.mem_of_getLast? hw))
  change left.span.merge right.span = _
  rw [hls, hrs, Span.merge, Nat.min_eq_left hstart, Nat.max_eq_right hstop]

theorem since_took (h : s.Took ts s') (hu : ts.getLast? = some u) (start : Nat) :
    s'.since start = ⟨start, max u.span.stop start⟩ := by
  have hp := h.previous
  rw [hu] at hp
  rw [State.since, hp]
  rfl

section Nested
variable {n : Nat} {nested : AtLevel}
variable (hn : ∀ level s, s.rest.length < n → Meets (nested level) s fun ts e _ => Exact ts e)
include hn

theorem nested_over (s : State) (hs : s.rest.length < n) :
    Meets (nested 0) s fun ts e _ => Over ts [e] :=
  (hn 0 s hs).mono fun _ _ _ _ h => h.over

/-- A name, and what is attached to it up to a closing mark. -/
theorem named_exact (hr : s.rest = t :: us) (hs : s.rest.length ≤ n) :
    Meets (named nested) s fun ts e _ => Exact ts e := by
  have hlt : (s.past t us).rest.length < n := by
    rw [hr] at hs
    exact hs
  have alone : Exact [t] (.name t.text t.span) := .token rfl rfl
  have hopen := opening_of_attachment us
  refine Meets.bind (Meets.next hr (Meets.look ?_))
  rw [show (s.past t us).rest = us from rfl]
  cases ha : attachment us with
  | none => exact Meets.pure alone
  | call =>
    rw [ha] at hopen
    obtain ⟨opening, vs, rfl, -⟩ := hopen
    refine Meets.bind (Meets.skipOne rfl ?_)
    refine (arguments_meets (s := (s.past t _).past opening vs) (nested_over hn)
      (Nat.lt_of_succ_lt hlt)).andThen fun ts args s' hk hargs => Meets.look (Meets.pure ?_)
    obtain ⟨ws, c, rfl, -, h⟩ := hargs
    rw [since_took hk (List.getLast?_concat ..)]
    have hx : Exact (t :: ([opening] ++ (ws ++ [c])))
        (.call t.text args ⟨t.span.start, max c.span.stop t.span.start⟩) := .closed h rfl rfl
    simpa using hx
  | dynamic =>
    rw [ha] at hopen
    obtain ⟨opening, vs, rfl, ho⟩ := hopen
    have hy := angleSubscripts_yields (s := s.past t (opening :: vs)) (nested_over hn) rfl ho
      (Nat.lt_of_succ_lt hlt)
    refine Meets.bind (Meets.attempt ?_ (Meets.pure alone))
    intro es s₁ hes
    obtain ⟨ts, h₁, hf, o, ws, c, rfl, -, -, h, -⟩ := hy es s₁ hes
    refine ⟨_, h₁, hf, Meets.look (Meets.pure ?_)⟩
    rw [since_took h₁ (u := c) (by rw [← List.cons_append, List.getLast?_concat])]
    have hx : Exact (t :: ([o] ++ (ws ++ [c]))) (.dynamic t.text es.1 es.2.1 es.2.2
        ⟨t.span.start, max c.span.stop t.span.start⟩) :=
      .closed h rfl (by simp [Expr.extent, Expr.extents])
    simpa using hx
  | substring =>
    rw [ha] at hopen
    obtain ⟨opening, vs, rfl, -⟩ := hopen
    refine Meets.bind (Meets.skipOne rfl ?_)
    refine (enclosed_meets (s := (s.past t _).past opening vs) (nested_over hn)
      (Nat.lt_of_succ_lt hlt)).andThen fun ts es s' hk hes => Meets.look (Meets.pure ?_)
    obtain ⟨ws, c, rfl, -, h⟩ := hes
    rw [since_took hk (List.getLast?_concat ..)]
    have hx : Exact (t :: ([opening] ++ (ws ++ [c]))) (.substring t.text es.1 es.2
        ⟨t.span.start, max c.span.stop t.span.start⟩) :=
      .closed h rfl (by simp [Expr.extent, Expr.extents])
    simpa using hx

theorem cursor_exact (hr : s.rest = t :: us) (hs : s.rest.length ≤ n) :
    Meets (cursor nested) s fun ts e _ => Exact ts e := by
  have hlt : (s.past t us).rest.length < n := by
    rw [hr] at hs
    exact hs
  refine Meets.bind (Meets.next hr (Meets.bind (Meets.require fun opening vs hv _ => ?_)))
  have hlt' : ((s.past t us).past opening vs).rest.length < n := by
    rw [hv] at hlt
    exact Nat.lt_of_succ_lt hlt
  refine (enclosed_meets (nested_over hn) hlt').andThen
    fun ts es s' hk ⟨ws, c, hw, _, h⟩ => Meets.look (Meets.pure ?_)
  subst hw
  rw [since_took hk (List.getLast?_concat ..)]
  have hx : Exact (t :: ([opening] ++ (ws ++ [c]))) (.cursor es.1 es.2
      ⟨t.span.start, max c.span.stop t.span.start⟩) :=
    .closed h rfl (by simp [Expr.extent, Expr.extents])
  simpa using hx

theorem parenthesized_exact (hr : s.rest = t :: us) (hs : s.rest.length ≤ n) :
    Meets (parenthesized nested) s fun ts e _ => Exact ts e := by
  have hlt : (s.past t us).rest.length < n := by
    rw [hr] at hs
    exact hs
  refine Meets.bind (Meets.next hr ?_)
  refine Meets.andThen (Q := fun ts e _ => ∃ ws c, ts = ws ++ [c] ∧ Over ws [e])
    (Meets.withAngled ?_) fun ts e s' hk ⟨ws, c, hw, h⟩ => Meets.look (Meets.pure ?_)
  · refine (nested_over hn { s.past t us with angled := false } hlt).andThen fun ts e _ _ h => ?_
    exact Meets.bind (Meets.require fun c vs _ _ => Meets.pure ⟨ts, c, by simp, h⟩)
  · subst hw
    rw [since_took hk (List.getLast?_concat ..)]
    have hx : Exact (t :: ([] ++ (ws ++ [c]))) (.paren e
        ⟨t.span.start, max c.span.stop t.span.start⟩) := .closed h rfl rfl
    simpa using hx

theorem primary_exact (hs : s.rest.length ≤ n) :
    Meets (primary nested) s fun ts e _ => Exact ts e := by
  refine Meets.look ?_
  cases hr : s.rest with
  | nil => exact Meets.expected
  | cons t us =>
    refine Meets.ite (fun _ => Meets.expected) fun _ => ?_
    cases t.kind with
    | number => exact Meets.bind (Meets.skipOne hr (Meets.pure (.token rfl rfl)))
    | string q => exact Meets.bind (Meets.skipOne hr (Meets.pure (.token rfl rfl)))
    | systemName => exact Meets.bind (Meets.skipOne hr (Meets.pure (.token rfl rfl)))
    | identifier => exact named_exact hn hr hs
    | keyword k => exact Meets.ite (fun _ => named_exact hn hr hs) fun _ => Meets.reportFail
    | symbol y =>
      cases y with
      | atSign => exact cursor_exact hn hr hs
      | leftParen => exact parenthesized_exact hn hr hs
      | _ => exact Meets.reportFail

theorem operand_exact (hs : s.rest.length ≤ n) :
    Meets (operand nested) s fun ts e _ => Exact ts e := by
  refine Meets.look ?_
  split
  next op hop =>
    obtain ⟨k, hk, -⟩ := Option.bind_eq_some_iff.mp hop
    obtain ⟨t, us, hr⟩ : ∃ t us, s.rest = t :: us := by
      cases hr : s.rest with
      | nil => simp [State.kind?, hr] at hk
      | cons t us => exact ⟨t, us, rfl⟩
    have hlt : (s.past t us).rest.length < n := by
      rw [hr] at hs
      exact hs
    refine Meets.bind (Meets.next hr ((hn _ _ hlt).andThen fun ts e _ _ h => Meets.pure ?_))
    simpa using h.unary
  next => exact primary_exact hn hs

theorem chain_exact {level : Nat} (hs : s.rest.length ≤ n) (h : Exact ts e) :
    Meets (chain nested level e) s fun us e' _ => Exact (ts ++ us) e' := by
  refine Meets.loop (I := fun ts e _ => Exact ts e) (Q := fun ts e _ => Exact ts e) ?_
    (Nat.lt_succ_of_le hs) h
  intro ts e s hs h
  refine Meets.look ?_
  cases hop : infixAt? s.angled s.rest with
  | none => exact Meets.pure (by simpa using h)
  | some found =>
    refine Meets.ite (fun _ => Meets.pure (by simpa using h)) fun _ => ?_
    obtain ⟨us, vs, hr, hw, hspell⟩ := spelling_of_binaryAt? (binaryAt?_of_infixAt? hop)
    have hne : us ≠ [] := by
      rintro rfl
      cases hspell
    rw [← hw]
    refine Meets.bind (Meets.skipAll hr fun s₁ h₁ => ?_)
    have hlt : s₁.rest.length < n := Nat.lt_of_lt_of_le (h₁.length_lt hne) (Nat.le_of_lt_succ hs)
    refine (hn _ s₁ hlt).andThen fun rs right _ _ hright => Meets.pure ⟨by simp [hne], ?_⟩
    rw [List.append_nil]
    exact h.binary hright

theorem expressionStep_exact (level : Nat) (hs : s.rest.length ≤ n) :
    Meets (expressionStep nested level) s fun ts e _ => Exact ts e :=
  (operand_exact hn hs).andThen fun _ _ _ h₁ h => chain_exact hn (Nat.le_trans h₁.length_le hs) h

end Nested

/-- An expression reaches from its first token to its last, and so do those nested in it. -/
theorem expressionAt_exact (level : Nat) (s : State) :
    Meets (expressionAt level) s fun ts e _ => Exact ts e :=
  Meets.knot (fun _ _ hn i _ hs => expressionStep_exact hn i hs) level s

end PickSyntax.Grammar
