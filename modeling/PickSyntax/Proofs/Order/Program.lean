import PickSyntax.Proofs.Order.Filing
import PickSyntax.Proofs.Structure.Program

/-!
# Every list of a program is in order

The parsers of bodies read filed lists, and all others hand on what they were given. So every
success of a parser is a part in order, whatever was wrong on the way, and the whole program is
in the end. Which `END`s may cross a line depends on the clauses that were read, so a parser is told
which clauses were read before it, and its part holds them.
-/
namespace PickSyntax

open PickSyntax.Parser PickSyntax.Grammar

/-- Between the states the part has been read: it is in order, it holds the clauses that were read
before, and comments in front of a line were heeded but by the `END`s of its clauses. -/
structure Part.Read (tokens : List Token) (before : List Clause) (p : Part) (s s' : State) :
    Prop where
  inOrder : p.InOrder tokens
  clauses : before ⊆ p.clauses
  heeds : s.Heeds (Token.ClosesOne tokens p.clauses) s'

namespace Part.Read
variable {tokens : List Token} {before : List Clause} {p q : Part} {s s₁ s' : State}

theorem after (h : q.Read tokens [] s s₁) (k : p.Read tokens (before ++ q.clauses) s₁ s') :
    p.Read tokens before s s' where
  inOrder := k.inOrder
  clauses _ hc := k.clauses (List.mem_append_left _ hc)
  heeds := by
    refine State.Heeds.trans (h.heeds.mono ?_) k.heeds
    rintro t ⟨c, hc, ht⟩
    exact ⟨c, k.clauses (List.mem_append_right _ hc), ht⟩

theorem behind (h : s.Heeds (fun _ => False) s₁) (k : p.Read tokens before s₁ s') :
    p.Read tokens before s s' :=
  ⟨k.inOrder, k.clauses, h.lax.trans k.heeds⟩

end Part.Read

namespace Grammar

variable {α β : Type} {tokens : List Token} {comments : List Comment} {n : Nat}
  {before : List Clause}

/-- Within the source every success of `p` from `s` reads a part that holds the clauses before. -/
def OrdersAt (tokens : List Token) (comments : List Comment) (n : Nat) (before : List Clause)
    (part : α → Part) (p : Parser α) (s : State) : Prop :=
  Amid tokens comments n s → s.Poised → Returns p s fun v s' => (part v).Read tokens before s s'

/-- Within the source every success of `p` reads a part that holds the clauses before. -/
def Orders (tokens : List Token) (comments : List Comment) (n : Nat) (before : List Clause)
    (part : α → Part) (p : Parser α) : Prop :=
  ∀ s, OrdersAt tokens comments n before part p s

section Rules
variable {part : α → Part} {part' : β → Part} {p q : Parser α} {f : α → Parser β} {s : State}

namespace OrdersAt

theorem give {v : α} (h : (part v).InOrder tokens) (hb : before ⊆ (part v).clauses) :
    OrdersAt tokens comments n before part (pure v) s :=
  fun _ hp => .pure ⟨h, hb, .refl hp⟩

theorem fail : OrdersAt tokens comments n before part (fail : Parser α) s := by
  intro _ _ v s' hr
  cases hr

theorem bind [Onward p] (hp : OrdersAt tokens comments n [] part p s)
    (hf : ∀ a s', p.run s = (some a, s') → (part a).InOrder tokens →
      OrdersAt tokens comments n (before ++ (part a).clauses) part' (f a) s') :
    OrdersAt tokens comments n before part' (p >>= f) s := by
  intro ha hpoised
  refine Returns.bind fun a s₁ h₁ v s' h => ?_
  have hread := hp ha hpoised a s₁ h₁
  have ha₁ := ha.reaches (Onward.run_reaches h₁)
  exact hread.after (hf a s₁ h₁ hread.inOrder ha₁ hread.heeds.poised v s' h)

/-- The same part with another value. -/
theorem map {g : α → β} (hp : OrdersAt tokens comments n before part p s)
    (hg : ∀ a, part' (g a) = part a) :
    OrdersAt tokens comments n before part' (p >>= fun a => pure (g a)) s := by
  intro ha hpoised
  refine Returns.bind fun a s₁ h₁ => .pure ?_
  rw [hg]
  exact hp ha hpoised a s₁ h₁

/-- A parser that lists nothing, and heeds the comments here. -/
theorem pastAt [Onward p] (hp : HeedsAt p s)
    (hf : ∀ a s', p.run s = (some a, s') → OrdersAt tokens comments n before part' (f a) s') :
    OrdersAt tokens comments n before part' (p >>= f) s := by
  intro ha hpoised
  refine Returns.bind fun a s₁ h₁ v s' h => ?_
  have hheeds := hp.run hpoised h₁
  have ha₁ := ha.reaches (Onward.run_reaches h₁)
  exact .behind hheeds (hf a s₁ h₁ ha₁ hheeds.poised v s' h)

theorem past [Onward p] [Heeding p]
    (hf : ∀ a s', OrdersAt tokens comments n before part' (f a) s') :
    OrdersAt tokens comments n before part' (p >>= f) s :=
  pastAt (Heeding.at p s) fun a s' _ => hf a s'

theorem look {f : State → Parser β} (h : OrdersAt tokens comments n before part' (f s) s) :
    OrdersAt tokens comments n before part' (look >>= f) s := h

theorem ite {c : Prop} [Decidable c] (hp : c → OrdersAt tokens comments n before part p s)
    (hq : ¬c → OrdersAt tokens comments n before part q s) :
    OrdersAt tokens comments n before part (if c then p else q) s := by
  split
  next h => exact hp h
  next h => exact hq h

end OrdersAt

namespace Orders

theorem give {v : α} (h : (part v).InOrder tokens) (hb : before ⊆ (part v).clauses) :
    Orders tokens comments n before part (pure v) :=
  fun _ => .give h hb

theorem fail : Orders tokens comments n before part (fail : Parser α) := fun _ => .fail

theorem bind [Onward p] (hp : Orders tokens comments n [] part p)
    (hf : ∀ a, (part a).InOrder tokens →
      Orders tokens comments n (before ++ (part a).clauses) part' (f a)) :
    Orders tokens comments n before part' (p >>= f) :=
  fun s => (hp s).bind fun a s' _ h => hf a h s'

theorem past [Onward p] [Heeding p] (hf : ∀ a, Orders tokens comments n before part' (f a)) :
    Orders tokens comments n before part' (p >>= f) :=
  fun _ => .past hf

theorem ite {c : Prop} [Decidable c] (hp : Orders tokens comments n before part p)
    (hq : Orders tokens comments n before part q) :
    Orders tokens comments n before part (if c then p else q) :=
  fun s => .ite (fun _ => hp s) fun _ => hq s

end Orders
end Rules

section Lists
variable (hstreams : Streams tokens comments)
  (hn : ∀ s, s.begun = false → OrdersAt tokens comments n [] .statement statement s)
include hstreams hn

theorem item_filed {is : List Item} {s : State} (ha : Amid tokens comments n s) (hp : s.Placed)
    (h : Filed tokens is s) :
    Returns (item statement) s fun o s' => Filed tokens (is ++ o.toList) s' := by
  refine Returns.look ?_
  cases hl : label? s with
  | some l =>
    obtain ⟨t, us, hr, -, rfl⟩ := rest_of_label? hl
    exact Returns.skipOne hr (.pure (h.label hstreams ha hp hr))
  | none =>
    refine Returns.bind fun _ s₁ h₁ => Returns.bind fun o s₂ h₂ => ?_
    have h := h.reaches (Onward.run_reaches h₁)
    have ha := ha.reaches (Onward.run_reaches h₁)
    have hp : s₁.Placed := by
      cases h₁
      exact hp
    rw [run_catchFailure] at h₂
    rcases hrun : statement.run s₁ with ⟨_ | st, s'⟩ <;> rw [hrun] at h₂ <;> cases h₂
    · refine Returns.bind fun _ s₃ h₃ => .pure ?_
      have hreach := (Onward.run_reaches hrun).trans (Onward.run_reaches h₃)
      simpa using h.reaches hreach
    · refine Returns.bind fun _ s₃ h₃ => .pure ?_
      have hb : s₁.begun = false := by
        cases h₁
        rfl
      have hcovers := statement_covers (hstreams.sound ha) hrun
      have hst := hn s₁ hb ha (hstreams.poised ha hp) st s' hrun
      have hlisted :=
        h.statement hstreams ha hp hcovers hst.heeds (Onward.run_reaches hrun) hst.inOrder
      exact hlisted.reaches (Onward.run_reaches h₃)

omit hn in
/-- Comments and a separator come first in every round of a list. -/
theorem separated_filed {γ : Type} {before items : List Item} {s : State}
    {g : List Item → Parser (Step (List Item) γ)} {Q : γ → State → Prop}
    (ha : Amid tokens comments n s) (h : Filed tokens (before ++ items) s)
    (hg : ∀ cs s, Amid tokens comments n s → s.Placed → Filed tokens (before ++ (items ++ cs)) s →
      Returns (g cs) s fun r s' =>
        r.Says (fun items => Filed tokens (before ++ items) s') (Q · s')) :
    Returns (commentItems >>= fun cs => acceptAnywhere (.symbol .semicolon) >>= fun b =>
      if b then pure (.more (items ++ cs)) else g cs) s fun r s' =>
        r.Says (fun items => Filed tokens (before ++ items) s') (Q · s') := by
  have hplaced := commentItems_placed (hstreams.sorted_left ha)
  refine Returns.bind fun cs s₁ h₁ => Returns.bind fun b s₂ h₂ => ?_
  have h := h.commentItems hstreams ha cs s₁ h₁
  rw [h₁] at hplaced
  rw [List.append_assoc] at h
  have ha := ha.reaches (Onward.run_reaches h₁)
  have h₂ := acceptAnywhere_returns _ s₁ b s₂ h₂
  cases b with
  | true =>
    obtain ⟨t, us, hr, -, rfl⟩ := h₂
    exact .pure (h.past hr)
  | false =>
    obtain rfl : s₂ = s₁ := h₂
    exact hg cs s₂ ha hplaced h

theorem bodyStep_filed {before items : List Item} {block : Block} {s : State}
    (ha : Amid tokens comments n s) (h : Filed tokens (before ++ items) s) :
    Returns (bodyStep statement block items) s fun r s' =>
      r.Says (fun items => Filed tokens (before ++ items) s')
        fun c => Filed tokens (before ++ c.1) s' := by
  refine separated_filed hstreams ha h fun cs s ha hp h => Returns.look ?_
  refine Returns.ite (fun _ => .pure h) fun _ => Returns.ite (fun _ => .pure h) fun _ => ?_
  refine Returns.enclosing fun outer => Returns.ite (fun _ => .pure h) fun _ => ?_
  refine Returns.bind fun o s' hr => .pure ?_
  have hlisted : Filed tokens (before ++ (items ++ cs) ++ o.toList) s' :=
    item_filed hstreams hn ha hp h o s' hr
  rwa [List.append_assoc] at hlisted

/-- A body goes on with the list before it. -/
theorem body_filed {before : List Item} {s : State} (block : Block)
    (ha : Amid tokens comments n s) (h : Filed tokens before s) :
    Returns (body statement block) s fun r s' => Filed tokens (before ++ r.1) s' := by
  have hloop : Returns (loop (bodyStep statement block) []) { s with blocks := block :: s.blocks }
      fun r s' => Filed tokens (before ++ r.1) s' := by
    refine Returns.loop
      (I := fun items s => Amid tokens comments n s ∧ Filed tokens (before ++ items) s)
      (fun items s hi r s' hr => ?_) ⟨⟨ha.few, ha.rest, ha.comments⟩, ?_⟩
    · have hround := bodyStep_filed hstreams hn hi.1 hi.2 r s' hr
      cases r with
      | more items => exact ⟨hi.1.reaches (Onward.run_reaches hr), hround⟩
      | done c => exact hround
    · rw [List.append_nil]
      exact ⟨h.inOrder, h.ahead, h.comments⟩
  intro r s' hr
  rw [body, run_inBlock] at hr
  rcases hl : (loop (bodyStep statement block) []).run { s with blocks := block :: s.blocks }
    with ⟨_ | c, s₁⟩ <;> rw [hl] at hr <;> cases hr
  have h := hloop _ _ hl
  exact ⟨h.inOrder, h.ahead, h.comments⟩

/-- What follows a body stands where the comments in front of the next token have been taken. -/
theorem body_orders {β : Type} {part' : β → Part} {block : Block}
    {f : List Item × BodyEnd → Parser β}
    (hf : ∀ r s, (Part.items r.1).InOrder tokens → s.Placed →
      OrdersAt tokens comments n before part' (f r) s) :
    Orders tokens comments n before part' (body statement block >>= f) := by
  intro s ha hp
  refine Returns.bind fun r s₁ h₁ v s' h => ?_
  have hfiled := body_filed hstreams hn block ha .nil r s₁ h₁
  have hbody : s.Heeds (fun _ => False) s₁ ∧ s₁.Placed :=
    body_heeds (hstreams.sound ha).ordered hp r s₁ h₁
  have ha₁ := ha.reaches (Onward.run_reaches h₁)
  exact .behind hbody.1 (hf r s₁ hfiled.inOrder hbody.2 ha₁ hbody.1.poised v s' h)

end Lists

section Clauses
variable (hstreams : Streams tokens comments)
  (hn : ∀ s, s.begun = false → OrdersAt tokens comments n [] .statement statement s)
  (owner : Owner) {s : State} {t : Token}

include hn in
theorem clauseStatement_orders :
    Orders tokens comments n [] .statement (clauseStatement statement) := by
  refine fun s => .look (.ite (fun hl ha hp => ?_) fun _ => .past fun _ _ => .fail)
  refine Returns.bind fun _ s₁ h₁ st s' h => ?_
  cases h₁
  have hread := hn { s with begun := false } rfl ⟨ha.few, ha.rest, ha.comments⟩
    ⟨hp.sorted, hp.spaced, fun _ => s.clear_of_onLine hl⟩ st s' h
  exact ⟨hread.inOrder, hread.clauses, hread.heeds.congr ⟨rfl, rfl⟩ ⟨rfl, rfl, rfl⟩⟩

include hstreams in
/-- Behind a keyword the statement on its line is a branch. -/
theorem clauseStatement_ends {k : Keyword} (ha : Amid tokens comments n s)
    (ht : (t :: s.rest) <:+ tokens) (hk : t.kind = .keyword k) :
    Returns (clauseStatement statement) s fun st s' =>
      Branch.Ends tokens ⟨k, [.statement st]⟩ s' := by
  refine Returns.look (.ite (fun hl => ?_) fun _ => Returns.bind fun _ _ _ => .fail)
  refine Returns.bind fun _ s₁ h₁ st s' h => ?_
  cases h₁
  have hsound := hstreams.sound ha
  obtain ⟨first, ts, last, hts, hfirst, hlast, hspan⟩ :=
    statement_covers (s := { s with begun := false }) ⟨hsound.spelled, hsound.ordered⟩ h
  obtain ⟨us, rfl⟩ := List.head?_eq_some_iff.mp hfirst
  obtain ⟨init, hinit⟩ := List.getLast?_eq_some_iff.mp hlast
  have hrest : s.rest = first :: (us ++ s'.rest) := hts
  have hline : first.lineStart = false := by simpa [State.onLine, hrest] using hl
  constructor
  · exact ⟨t, first, us ++ s'.rest, st, hrest ▸ ht, hk, hline, rfl, by rw [hspan]⟩
  · refine ⟨st, last, rfl, by rw [hspan], List.IsSuffix.trans ⟨init, ?_⟩ ha.rest⟩
    rw [hrest, ← List.cons_append, hinit, List.append_assoc, List.singleton_append]

include hn in
theorem onErrorClause_orders : Orders tokens comments n [] .single (onErrorClause statement) := by
  refine fun s => .look (.ite (fun h => ?_) fun _ => .give .noSingle (List.nil_subset _))
  rw [Bool.and_eq_true] at h
  obtain ⟨t, us, hr, -, -⟩ := State.rest_of_isAtOnLine h.1
  obtain ⟨u, vs, rfl, -⟩ := rest_of_isBeforeKeyword hr h.2
  have hu : u.lineStart = false := by
    have := h.2
    simp_all [State.isBeforeKeyword]
  refine .pastAt (.skipTwo (s.clear_of_isAtOnLine h.1) hr hu) fun _ s' _ => ?_
  exact (clauseStatement_orders hn s').bind fun st _ _ h => .give h.single (List.Subset.refl _)

include hn in
theorem lockedClause_orders : Orders tokens comments n [] .single (lockedClause statement) := by
  refine .past fun _ => .ite ?_ (.give .noSingle (List.nil_subset _))
  exact (clauseStatement_orders hn).bind fun st h => .give h.single (List.Subset.refl _)

include hstreams hn

theorem elseBlock_orders : Orders tokens comments n [] .items (elseBlock statement owner) :=
  body_orders hstreams hn fun _ _ h hplaced =>
    .pastAt (closeBlock_heeds hplaced) fun _ _ _ => .give h (List.nil_subset _)

theorem elseBranch_orders :
    Orders tokens comments n [] (fun r => .branch r.1 r.2) (elseBranch statement owner) := by
  refine .past fun _ => .ite ?_ ?_
  · exact (clauseStatement_orders hn).bind fun st h => .give h.one.branch Part.clauses_one
  · exact (elseBlock_orders hstreams hn owner).bind fun is h => .give h.branch (List.Subset.refl _)

omit hn in
/-- Behind an `ELSE` a branch that is written on one line is one statement there. -/
theorem elseBranch_ends (ha : Amid tokens comments n s) (ht : (t :: s.rest) <:+ tokens)
    (hk : t.kind = .keyword .ELSE) : Returns (elseBranch statement owner) s fun r s' =>
      r.2 = .inline → Branch.Ends tokens ⟨.ELSE, r.1⟩ s' := by
  refine Returns.look (.ite (fun _ => ?_) fun _ => Returns.bind fun is s₁ h₁ => .pure ?_)
  · exact Returns.bind fun st s₁ h₁ => .pure fun _ =>
      clauseStatement_ends hstreams ha ht hk st s₁ h₁
  · intro h
    cases h

omit hstreams hn in
/-- The `END` behind a clause on one line is one of its own. -/
theorem closeInline_orders {c : Clause} (h : (Part.clause (some c)).InOrder tokens)
    (hb : before ⊆ (Part.items c.items).clauses)
    (hends : c.layout = .inline → (∀ q ∈ c.branches, q.Inline tokens) ∧
      ∃ q : Branch, q.Ends tokens s ∧ c.items.getLast? = q.items.getLast?) :
    OrdersAt tokens comments n before (fun c => .clause (some c)) (closeInline c) s := by
  obtain ⟨thenBody, elseBody, layout⟩ := c
  refine .look (.ite (fun hclose => ?_) fun _ => .give h fun d hd => Part.clauses_items (hb hd))
  intro ha hp
  simp only [Bool.and_eq_true, beq_iff_eq] at hclose
  obtain ⟨hinline, q, hq, hlast⟩ := hends hclose.1.1
  obtain ⟨st, last, hitems, hstop, hsuffix⟩ := hq.behind
  obtain ⟨u, us, hr, hlone⟩ := rest_of_atLoneEnd hclose.1.2
  have hcloses : Clause.ClosedInline tokens ⟨thenBody, elseBody, .block⟩ u := by
    refine ⟨hlone.kind, rfl, hinline, st, last, ?_, hstop, ?_⟩
    · rw [Clause.items_mk, ← Clause.items_mk thenBody elseBody layout, hlast, hitems]
      rfl
    · have hbehind : (last :: u :: us) <:+ tokens := hr ▸ hsuffix
      exact List.IsInfix.trans ⟨[], us, rfl⟩ hbehind.isInfix
  refine Returns.skipOne hr (.pure ⟨⟨h.own, h.nested⟩, fun d hd => Part.clauses_items (hb hd), ?_⟩)
  exact .take hp hr (.inl ⟨_, List.mem_append_left _ (List.mem_singleton_self _), hcloses⟩)

theorem thenBlock_orders :
    Orders tokens comments n [] (fun c => .clause (some c)) (thenBlock statement owner) := by
  refine body_orders hstreams hn fun r s h hplaced => ?_
  obtain ⟨items, stop⟩ := r
  have hone : (Part.clause (some ⟨some items, none, .block⟩)).InOrder tokens :=
    .clause (by simpa using h) nofun
  have htwo {is : List Item} (h' : (Part.items is).InOrder tokens) :
      (Part.clause (some ⟨some items, some is, .block⟩)).InOrder tokens :=
    .clause (by simpa using h) (by simpa using h')
  refine .ite (fun _ => .look (.ite (fun _ => ?_) fun _ => ?_)) fun _ => ?_
  · refine .pastAt (.skipOne hplaced.clear) fun _ s' _ => .past fun b s' => ?_
    refine .ite (fun _ => ?_) fun _ => .give hone (List.nil_subset _)
    refine (elseBranch_orders hstreams hn owner s').bind fun r _ _ h' => ?_
    obtain ⟨is, layout⟩ := r
    exact .give (htwo ⟨h'.own, h'.nested⟩) Part.clauses_else
  · refine .pastAt (.skipOne hplaced.clear) fun _ s' _ => ?_
    refine (elseBlock_orders hstreams hn owner s').bind fun is _ _ h' => ?_
    exact .give (htwo h') Part.clauses_else
  · exact .past fun _ _ => .give hone (List.nil_subset _)

/-- Behind a `THEN` whose branch is on its line. -/
theorem thenInline_orders (ht : (t :: s.rest) <:+ tokens) (hk : t.kind = .keyword .THEN) :
    OrdersAt tokens comments n [] (fun c => .clause (some c)) (thenInline statement owner) s := by
  intro ha
  refine (clauseStatement_orders hn s).bind (fun st s₁ h₁ hst => ?_) ha
  have hthen := clauseStatement_ends hstreams ha ht hk st s₁ h₁
  have ha₁ := ha.reaches (Onward.run_reaches h₁)
  refine .pastAt (Heeding.at _ s₁) fun b s₂ h₂ => ?_
  have helse := accept_returns _ s₁ b s₂ h₂
  cases b with
  | true =>
    obtain ⟨u, us, hr, hu, -, rfl⟩ := helse
    have hsuffix : (u :: us) <:+ tokens := hr ▸ ha₁.rest
    refine (elseBranch_orders hstreams hn owner _).bind fun r s₃ h₃ hbranch => ?_
    obtain ⟨is, layout⟩ := r
    have ha₂ := ha₁.reaches (Onward.run_reaches h₂)
    have hends := elseBranch_ends hstreams owner ha₂ hsuffix hu _ s₃ h₃
    have hclause :
        (Part.clause (some ⟨some [.statement st], some is, layout⟩)).InOrder tokens :=
      .clause (by simpa using hst.one) (by simpa using ⟨hbranch.own, hbranch.nested⟩)
    refine closeInline_orders hclause Part.clauses_inline fun hl => ⟨?_, _, hends hl, ?_⟩
    · simpa [Clause.branches] using ⟨hthen.inline, (hends hl).inline⟩
    · obtain ⟨_, _, his, -⟩ := (hends hl).behind
      have his : is = _ := his
      simp [his]
  | false =>
    obtain rfl : s₂ = s₁ := helse
    refine closeInline_orders (.clause (by simpa using hst.one) nofun) Part.clauses_one fun _ => ?_
    refine ⟨?_, _, hthen, rfl⟩
    simpa [Clause.branches] using hthen.inline

theorem clause?_orders : Orders tokens comments n [] .clause (clause? statement owner) := by
  intro s ha
  refine OrdersAt.pastAt (Heeding.at _ s) (fun b s₁ h₁ => ?_) ha
  have hthen := accept_returns _ s b s₁ h₁
  have ha₁ := ha.reaches (Onward.run_reaches h₁)
  cases b with
  | true =>
    obtain ⟨t, us, hr, ht, -, rfl⟩ := hthen
    have hsuffix : (t :: us) <:+ tokens := hr ▸ ha.rest
    refine .look (.ite (fun _ => ?_) fun _ => ?_)
    · exact (thenInline_orders hstreams hn owner hsuffix ht).bind fun c _ _ h =>
        .give h (List.Subset.refl _)
    · exact (thenBlock_orders hstreams hn owner _).bind fun c _ _ h =>
        .give h (List.Subset.refl _)
  | false =>
    refine .pastAt (Heeding.at _ s₁) fun b s₂ h₂ => ?_
    have helse := accept_returns _ s₁ b s₂ h₂
    cases b with
    | true =>
      obtain ⟨t, us, hr, ht, -, rfl⟩ := helse
      have hsuffix : (t :: us) <:+ tokens := hr ▸ ha₁.rest
      refine (elseBranch_orders hstreams hn owner _).bind fun r s₃ h₃ hbranch => ?_
      obtain ⟨is, layout⟩ := r
      have ha₂ := ha₁.reaches (Onward.run_reaches h₂)
      have hends := elseBranch_ends hstreams owner ha₂ hsuffix ht _ s₃ h₃
      refine .map (closeInline_orders (.clause nofun (by simpa using ⟨hbranch.own, hbranch.nested⟩))
        (List.Subset.refl _) fun hl => ⟨?_, _, hends hl, rfl⟩) fun _ => rfl
      simpa [Clause.branches] using (hends hl).inline
    | false => exact .give .noClause (List.nil_subset _)

theorem requiredClause_orders :
    Orders tokens comments n [] (fun c => .clause (some c)) (requiredClause statement owner) := by
  refine (clause?_orders hstreams hn owner).bind fun o h => ?_
  cases o with
  | some c => exact .give h (List.Subset.refl _)
  | none => exact .past fun _ => .past fun _ => .fail

theorem forNext_orders (opener : Token) :
    Orders tokens comments n [] .form (forNext statement opener) := by
  refine .past fun counter => .past fun _ => .past fun start => .past fun _ => .past fun limit => ?_
  refine .past fun step => .past fun guard => body_orders hstreams hn fun _ s h hplaced => ?_
  refine .ite (fun _ => .pastAt (nextName_heeds hplaced.clear) fun name _ _ => ?_) fun _ => ?_
  · exact .give h.forNext (List.nil_subset _)
  · exact .past fun _ _ => .give h.forNext (List.nil_subset _)

/-- A guard that is left out is no matter, since a body follows. -/
theorem loopRest_orders (sense : GuardSense) :
    Orders tokens comments n [] (fun r => .items r.2) (loopRest statement owner sense) := by
  intro s ha hp
  refine Returns.bind fun guard s₁ h₁ => Returns.bind fun _ s₂ h₂ => ?_
  have hreach : s.Reaches s₂ := (Onward.run_reaches h₁).trans (Onward.run_reaches h₂)
  refine Returns.bind fun read s₃ h₃ r s' h => ?_
  obtain ⟨items, stop⟩ := read
  have hfiled := body_filed hstreams hn _ (ha.reaches hreach) .nil _ s₃ h₃
  have hreach := hreach.trans (Onward.run_reaches h₃)
  have hsorted : s₃.Sorted := hp.sorted.sublist hreach.comments.sublist
  have hplaced := hsorted.placed (body_placed _ s₂ _ s₃ h₃)
  have hheeds : s.Heeds (fun _ => False) s₃ :=
    heeds_of_placed (hstreams.sound ha).ordered hp hreach hplaced
  have hclose : OrdersAt tokens comments n [] (fun r => .items r.2) (do
      closeBlock owner "REPEAT" stop
      return (guard, items)) s₃ :=
    .pastAt (closeBlock_heeds hplaced) fun _ _ _ => .give hfiled.inOrder (List.nil_subset _)
  exact .behind hheeds (hclose (ha.reaches hreach) hheeds.poised r s' h)

theorem loopRepeat_orders (opener : Token) :
    Orders tokens comments n [] .form (loopRepeat statement opener) := by
  refine body_orders hstreams hn fun _ s h hplaced => ?_
  refine .ite (fun _ => .look ?_) fun _ => .past fun _ _ => .give (h.loop .nil) (List.nil_subset _)
  cases guardSense? s with
  | some sense =>
    refine (loopRest_orders hstreams hn _ sense s).bind fun _ _ _ h' => ?_
    exact .give (h.loop h') Part.clauses_loop
  | none =>
    exact .pastAt (.skipOne hplaced.clear) fun _ _ _ => .give (h.loop .nil) (List.nil_subset _)

/-- What has been read of a `BEGIN CASE` is in order, and the comments that wait are filed. -/
structure CasesFiled (tokens : List Token) (comments : List Comment) (n : Nat) (p : CaseProgress)
    (s : State) : Prop where
  amid : Amid tokens comments n s
  leading : Filed tokens p.leading s
  cases : (Part.cases p.cases).InOrder tokens

omit hstreams hn in
theorem CasesFiled.reaches {p : CaseProgress} {s s' : State} (h : CasesFiled tokens comments n p s)
    (hr : s.Reaches s') : CasesFiled tokens comments n p s' :=
  ⟨h.amid.reaches hr, h.leading.reaches hr, h.cases⟩

/-- The body of a clause begins with the comments that have waited for it. -/
theorem caseArm_orders {p : CaseProgress} {s : State} (h : CasesFiled tokens comments n p s) :
    Returns (caseArm statement p.leading) s fun r _ =>
      ∀ arm ∈ r.1, (Part.items arm.body).InOrder tokens := by
  refine Returns.bind fun opener s₁ h₁ => Returns.bind fun condition s₂ h₂ => ?_
  have h := h.reaches ((Onward.run_reaches h₁).trans (Onward.run_reaches h₂))
  refine Returns.bind fun r s₃ h₃ => Returns.look (.pure fun arm harm => ?_)
  have hbody := body_filed hstreams hn _ h.amid h.leading r s₃ h₃
  obtain ⟨c, -, rfl⟩ := Option.map_eq_some_iff.mp harm
  exact hbody.inOrder

theorem caseArmStep_filed {p : CaseProgress} {s : State} (h : CasesFiled tokens comments n p s) :
    Returns (caseArmStep statement owner p) s fun r s' =>
      r.Says (CasesFiled tokens comments n · s')
        fun cases => (Part.cases cases).InOrder tokens := by
  refine Returns.bind fun r s₁ h₁ => ?_
  have harm := caseArm_orders hstreams hn h r s₁ h₁
  have h := h.reaches (Onward.run_reaches h₁)
  obtain ⟨_ | arm, stop⟩ := r
  · cases stop with
    | closed => exact .pure h
    | interrupted | exhausted => exact Returns.bind fun _ _ _ => .pure h.cases
  · have hcases := h.cases.case (harm arm rfl)
    cases stop with
    | closed => exact .pure ⟨h.amid, .nil, hcases⟩
    | interrupted | exhausted => exact Returns.bind fun _ _ _ => .pure hcases

theorem caseStep_filed {p : CaseProgress} {s : State} (h : CasesFiled tokens comments n p s) :
    Returns (caseStep statement owner p) s fun r s' =>
      r.Says (CasesFiled tokens comments n · s')
        fun cases => (Part.cases cases).InOrder tokens := by
  refine Returns.bind fun new s₁ h₁ => Returns.bind fun b s₂ h₂ => ?_
  have hleading := h.leading.commentItems hstreams h.amid new s₁ h₁
  have h : CasesFiled tokens comments n ⟨p.leading ++ new, p.cases⟩ s₂ :=
    CasesFiled.reaches ⟨h.amid.reaches (Onward.run_reaches h₁), hleading, h.cases⟩
      (Onward.run_reaches h₂)
  refine Returns.ite (fun _ => .pure h) fun _ => Returns.look (.ite (fun _ => ?_) fun _ => ?_)
  · exact Returns.bind fun _ _ _ => .pure h.cases
  · refine .ite (fun _ => Returns.bind fun _ _ _ => .pure h.cases) fun _ => ?_
    refine .ite (fun _ => caseArmStep_filed hstreams hn owner h) fun _ => ?_
    refine .ite (fun _ => ?_) fun _ => ?_
    · exact Returns.bind fun _ _ _ => .pure h.cases
    · refine Returns.bind fun _ s₃ h₃ => Returns.bind fun _ s₄ h₄ => Returns.bind fun _ s₅ h₅ => ?_
      have hreach := (Onward.run_reaches h₃).trans (Onward.run_reaches h₄)
      exact .pure (h.reaches (hreach.trans (Onward.run_reaches h₅)))

theorem caseArms_orders : Orders tokens comments n [] .cases (caseArms statement owner) := by
  intro s ha hp cases s' h
  have hfiled : (Part.cases cases).InOrder tokens :=
    Returns.loop (I := CasesFiled tokens comments n)
      (Q := fun cases _ => (Part.cases cases).InOrder tokens)
      (fun _ _ h => caseStep_filed hstreams hn owner h) ⟨ha, .nil, .noCase⟩ cases s' h
  exact ⟨hfiled, List.nil_subset _, caseArms_heeds (hstreams.sound ha).ordered hp cases s' h⟩

theorem beginCase_orders (opener : Token) :
    Orders tokens comments n [] .form (beginCase statement opener) :=
  .past fun _ => (caseArms_orders hstreams hn _).bind fun _ h =>
    .give h.beginCase (List.Subset.refl _)

/-- Branches behind what is attached in front of them. -/
theorem branches_orders {onError locked : Option Statement} {form : Option Clause → Form}
    (hf : ∀ c, (form c).attachments? = some ⟨onError, locked, c⟩)
    (he : (Part.single onError).InOrder tokens) (hl : (Part.single locked).InOrder tokens)
    (hb : before ⊆ (Part.single onError).clauses ++ (Part.single locked).clauses) :
    Orders tokens comments n before .form (do return form (← clause? statement owner)) :=
  (clause?_orders hstreams hn owner).bind fun c hc =>
    .give (.attached (hf c) he hl hc) (Part.clauses_attached (hf c) hb)

omit hstreams in
theorem onError_orders {form : Option Statement → Form}
    (hf : ∀ e, (form e).attachments? = some ⟨e, none, none⟩) :
    Orders tokens comments n [] .form (do return form (← onErrorClause statement)) := by
  refine (onErrorClause_orders hn).bind fun e he => ?_
  refine .give (.attached (hf e) he .noSingle .noClause) fun c hc => ?_
  exact Part.clauses_attached (hf e) (List.subset_append_left _ _) (List.mem_append_left _ hc)

theorem singles_orders {form : Option Statement → Option Statement → Option Clause → Form}
    (hf : ∀ e l c, (form e l c).attachments? = some ⟨e, l, c⟩) :
    Orders tokens comments n [] .form (do
      let onError ← onErrorClause statement
      let locked ← lockedClause statement
      return form onError locked (← clause? statement owner)) := by
  refine (onErrorClause_orders hn).bind fun e he => (lockedClause_orders hn).bind fun l hl => ?_
  exact branches_orders hstreams hn owner (hf e l) he hl (List.Subset.refl _)

theorem ifThen_orders (opener : Token) :
    Orders tokens comments n [] .form (ifThen statement opener) := by
  refine .past fun condition => (requiredClause_orders hstreams hn _).bind fun c hc => ?_
  exact .give (.attached rfl .noSingle .noSingle hc) (Part.clauses_attached rfl (List.nil_subset _))

theorem inputAt_orders (opener : Token) (h : s.Clear) :
    OrdersAt tokens comments n [] .form (inputAt statement opener) s := by
  refine .pastAt (.skipOne h) fun _ s _ => .past fun _ s => .past fun column s => ?_
  refine .past fun _ s => .past fun row s => .past fun _ s => .past fun _ s => ?_
  refine .past fun into s => .past fun length s => .past fun owner s => ?_
  exact branches_orders hstreams hn _ (fun _ => rfl) .noSingle .noSingle (List.nil_subset _) s

theorem input_orders (opener : Token) :
    Orders tokens comments n [] .form (input statement opener) := by
  refine fun s => .look (.ite (fun h => ?_) fun _ => .past fun into s => .past fun length s => ?_)
  · exact inputAt_orders hstreams hn opener (s.clear_of_isAtOnLine h)
  · exact branches_orders hstreams hn _ (fun _ => rfl) .noSingle .noSingle (List.nil_subset _) s

theorem openFile_orders (opener : Token) :
    Orders tokens comments n [] .form (openFile statement opener) := by
  refine .past fun a => .past fun b => .past fun into => ?_
  refine (onErrorClause_orders hn).bind fun e he => ?_
  refine (requiredClause_orders hstreams hn _).bind fun c hc => ?_
  cases b <;> exact .give (.attached rfl he .noSingle hc)
    (Part.clauses_attached rfl (List.subset_append_left _ _))

theorem read_orders (mode : RecordMode) (opener : Token) :
    Orders tokens comments n [] .form (read statement mode opener) :=
  .past fun _ => .past fun _ => .past fun _ => singles_orders hstreams hn _ fun _ _ _ => rfl

omit hstreams in
theorem write_orders (mode : RecordMode) :
    Orders tokens comments n [] .form (write statement mode) :=
  .past fun _ => .past fun _ => .past fun _ => onError_orders hn fun _ => rfl

theorem delete_orders (opener : Token) :
    Orders tokens comments n [] .form (delete statement opener) :=
  .past fun _ => (onErrorClause_orders hn).bind fun _ he =>
    branches_orders hstreams hn _ (fun _ => rfl) he .noSingle (List.subset_append_left _ _)

theorem receive_orders (feed : Feed) (opener : Token) :
    Orders tokens comments n [] .form (receive statement feed opener) :=
  .past fun _ =>
    branches_orders hstreams hn _ (fun _ => rfl) .noSingle .noSingle (List.nil_subset _)

theorem lock_orders (opener : Token) : Orders tokens comments n [] .form (lock statement opener) :=
  .past fun _ => (lockedClause_orders hn).bind fun _ hl =>
    branches_orders hstreams hn _ (fun _ => rfl) .noSingle hl (List.subset_append_right _ _)

omit hstreams in
theorem clearFile_orders : Orders tokens comments n [] .form (clearFile statement) :=
  .past fun _ => onError_orders hn fun _ => rfl

theorem matRead_orders (locking : Bool) (opener : Token) :
    Orders tokens comments n [] .form (matRead statement locking opener) :=
  .past fun _ => .past fun _ => .past fun _ => singles_orders hstreams hn _ fun _ _ _ => rfl

omit hstreams in
theorem matWrite_orders (locking : Bool) :
    Orders tokens comments n [] .form (matWrite statement locking) :=
  .past fun _ => .past fun _ => .past fun _ => onError_orders hn fun _ => rfl

theorem locate_orders (opener : Token) :
    Orders tokens comments n [] .form (locate statement opener) :=
  .past fun _ => .past fun _ => .past fun _ => .past fun _ =>
    branches_orders hstreams hn _ (fun _ => rfl) .noSingle .noSingle (List.nil_subset _)

omit hstreams hn in
theorem simple_orders {p : Parser Form} [hsimple : Simple p] (h : HeedsAt p s) :
    OrdersAt tokens comments n [] .form p s := by
  intro _ hp f s' hr
  exact ⟨.attached (hsimple.attachments hr) .noSingle .noSingle .noClause, List.nil_subset _,
    (h.run hp hr).lax⟩

omit hstreams hn in
theorem endUnit_orders {opener : Token} {us : List Token} (hr : s.rest = opener :: us)
    (h : s.Clear) (hk : opener.kind = .keyword .END) :
    OrdersAt tokens comments n [] .form (endUnit opener) s := by
  intro _ hp f s' hrun
  have hform : Returns (endUnit opener) s fun f _ => f = .endUnit := by
    refine .look (.ite (fun _ => Returns.bind fun _ _ _ => .pure rfl) fun _ => ?_)
    exact Returns.bind fun _ _ _ => Returns.bind fun _ _ _ => .fail
  have hheeds := (endUnit_heeds hr h hk).run hp hrun
  obtain rfl := hform f s' hrun
  exact ⟨⟨nofun, nofun⟩, List.nil_subset _, hheeds.lax⟩

omit hstreams hn in
/-- Once the keyword has been taken, fewer tokens are left. -/
theorem led_orders {p : Token → Parser Form} (h : ∀ t, Orders tokens comments n [] .form (p t))
    (hclear : s.Clear) : OrdersAt tokens comments (n + 1) [] .form (led p) s := by
  intro ha hp
  refine Returns.bind fun t s₁ h₁ f s' hrun => ?_
  have hheeds := (HeedsAt.next hclear).run hp h₁
  have ha₁ := ha.reaches (Onward.run_reaches h₁)
  have hfew : s₁.rest.length < s.rest.length := Moves.lt h₁
  have hlt : s₁.rest.length < n := Nat.lt_of_lt_of_le hfew (Nat.le_of_lt_succ ha.few)
  exact .behind hheeds (h t s₁ ⟨hlt, ha₁.rest, ha₁.comments⟩ hheeds.poised f s' hrun)

theorem keywordForm_orders {k : Keyword} {opener : Token} {us : List Token}
    (hr : s.rest = opener :: us) (h : s.Clear) (hk : opener.kind = .keyword k) :
    OrdersAt tokens comments (n + 1) [] .form (keywordForm statement k opener) s := by
  cases k with
  | END => exact endUnit_orders hr h hk
  | IF => exact led_orders (ifThen_orders hstreams hn) h
  | BEGIN => exact led_orders (beginCase_orders hstreams hn) h
  | FOR => exact led_orders (forNext_orders hstreams hn) h
  | LOOP => exact led_orders (loopRepeat_orders hstreams hn) h
  | INPUT => exact led_orders (input_orders hstreams hn) h
  | OPEN => exact led_orders (openFile_orders hstreams hn) h
  | READ | READU | READV | READVU => exact led_orders (read_orders hstreams hn _) h
  | WRITE | WRITEU | WRITEV | WRITEVU => exact led_orders (fun _ => write_orders hn _) h
  | DELETE => exact led_orders (delete_orders hstreams hn) h
  | READNEXT | READT | PROCREAD => exact led_orders (receive_orders hstreams hn _) h
  | LOCK => exact led_orders (lock_orders hstreams hn) h
  | CLEARFILE => exact led_orders (fun _ => clearFile_orders hn) h
  | MATREAD | MATREADU => exact led_orders (matRead_orders hstreams hn _) h
  | MATWRITE | MATWRITEU => exact led_orders (fun _ => matWrite_orders hn _) h
  | LOCATE => exact led_orders (locate_orders hstreams hn) h
  | _ =>
    unfold keywordForm
    first
      | exact simple_orders (led_heeds h)
      | exact simple_orders (Heeding.at _ s)

theorem statementStep_orders (hb : s.begun = false) :
    OrdersAt tokens comments (n + 1) [] .statement (statementStep statement) s := by
  refine .look ?_
  cases hr : s.rest with
  | nil => exact .past fun _ _ => .fail
  | cons t us =>
    intro ha hp
    have hform : OrdersAt tokens comments (n + 1) [] .form (form statement t) s := by
      unfold form
      split
      next hk => exact keywordForm_orders hstreams hn hr (hp.first hb) hk
      next => exact simple_orders (Heeding.at _ s)
    refine hform.bind (fun f _ _ hf => .past fun s' _ => ?_) ha hp
    exact .give hf.statement (by rw [Part.clauses_statement]; exact List.Subset.refl _)

omit hn in
theorem statement_orders (n : Nat) :
    ∀ s, s.begun = false → OrdersAt tokens comments n [] .statement statement s := by
  induction n with
  | zero => exact fun s _ ha => absurd ha.few (Nat.not_lt_zero _)
  | succ n ih =>
    intro s hb
    rw [statement_eq]
    exact statementStep_orders hstreams ih hb

omit hn in
theorem programStep_filed {items : List Item} {s : State} (ha : Amid tokens comments n s)
    (h : Filed tokens items s) :
    Returns (programStep statement items) s fun r s' =>
      r.Says (Filed tokens · s') (Filed tokens · s') := by
  have hitems : Filed tokens ([] ++ items) s := h
  refine separated_filed hstreams ha hitems fun cs s ha hp h => Returns.look ?_
  refine Returns.ite (fun _ => .pure h) fun _ => Returns.bind fun o s' hr => .pure ?_
  exact item_filed hstreams (statement_orders hstreams n) ha hp h o s' hr

omit hn in
theorem programItems_filed {s : State} (ha : Amid tokens comments n s) :
    Returns (programItems statement) s (Filed tokens) := by
  refine Returns.loop (I := fun items s => Amid tokens comments n s ∧ Filed tokens items s)
    (fun items s h r s' hr => ?_) ⟨ha, .nil⟩
  have hround := programStep_filed hstreams h.1 h.2 r s' hr
  cases r with
  | more items => exact ⟨h.1.reaches (Onward.run_reaches hr), hround⟩
  | done items => exact hround

end Clauses

end PickSyntax.Grammar

namespace PickSyntax

open PickSyntax.Parser PickSyntax.Grammar

/-- Every list of items of a tree is in the order of the source, comments included: each item begins
before those behind it, and ends before them unless it is a statement that overruns a comment.
A statement overruns a comment only by a token that begins the line behind the comment: the `END` of
a clause that was written on one line, the parenthesis of an empty list, or a sign. -/
theorem parse_items_in_order (options : Options) (source : String) :
    ∀ is ∈ (parseWith options source).program.lists,
      is.Pairwise (Item.Precedes (lex source).tokens) := by
  have hprogram : (parseWith options source).program =
      (State.ofLexing (lex source) options.keepComments).readProgram.1 := rfl
  rw [hprogram]
  generalize hs : State.ofLexing (lex source) options.keepComments = s
  have ha : Amid (lex source).tokens (lex source).comments (s.rest.length + 1) s := by
    refine ⟨Nat.lt_succ_self _, ?_, ?_⟩ <;> subst hs
    · exact List.suffix_rfl
    · cases options.keepComments with
      | true => exact List.suffix_rfl
      | false => exact List.nil_suffix
  obtain ⟨items, s', hrun, -, -⟩ := programLoop_ends [] s
  have hfiled := programItems_filed (lex_streams source) ha items s' hrun
  rw [readProgram_of_some hrun]
  intro is his
  simp only [Program.lists, Program.allStatements, List.mem_cons, List.mem_flatMap] at his
  obtain rfl | ⟨st, hst, his⟩ := his
  · exact hfiled.inOrder.own is (List.mem_singleton_self is)
  · exact hfiled.inOrder.nested st hst is his

theorem parse_items_in_order_across :
    let source := "FOR I = 1 TO 2\nIF X THEN NULL\n* C\nEND\nNEXT I"
    ∃ is ∈ (parseWith {} source).program.lists, is.length = 2 ∧
      is.Pairwise (Item.Precedes (lex source).tokens) := by
  intro source
  have hbody : ∃ is ∈ (parseWith {} source).program.lists, is.length = 2 := by decide +kernel
  obtain ⟨is, his, hlength⟩ := hbody
  exact ⟨is, his, hlength, parse_items_in_order {} source is his⟩

/-- An `END` that closes a clause across a comment leaves the comment behind a statement that
contains it. -/
theorem not_items_apart : ¬∀ source, (parse source).diagnostics = [] →
    ∀ is ∈ (parse source).program.lists,
      is.Pairwise fun a b => a.span.start < b.span.start ∧ a.span.stop ≤ b.span.start := by
  intro h
  have hover := h "IF X THEN NULL\n* C\nEND" (by decide +kernel)
  revert hover
  decide +kernel

end PickSyntax
