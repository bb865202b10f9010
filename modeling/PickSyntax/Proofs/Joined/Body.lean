import PickSyntax.Proofs.Account.Block
import PickSyntax.Proofs.Joined.Line

/-!
# Statement lists across an end

Items agree, and so does the place where reading goes on after a fault: what stands behind the
end of the tokens is a boundary. A body whose tokens end is the one place where the first run
ends too early without a word; its opener then records that the terminator is missing.
-/
namespace PickSyntax.Parser.Seam

open PickSyntax.Grammar

variable {m : Seam} {known : Bool} {s S : State}

theorem skipWhile_nil {c : Token → Bool} (hr : s.rest = []) : s.skipWhile c = s := by
  cases s
  cases hr
  simp [State.skipWhile]

theorem skipWhile_stop {c : Token → Bool} {t : Token} {ts : List Token} (hr : s.rest = t :: ts)
    (hc : c t = false) : s.skipWhile c = s := by
  cases s
  cases hr
  simp [State.skipWhile, hc]

theorem skipWhile_go {c : Token → Bool} {t : Token} {ts : List Token} (hr : s.rest = t :: ts)
    (hc : c t = true) : s.skipWhile c = (s.past t ts).skipWhile c := by
  have hlast : (t :: ts.takeWhile c).getLast?.or s.previous = (ts.takeWhile c).getLast?.or (some t) := by
    cases ts.takeWhile c <;> simp [List.getLast?_cons]
  simp only [State.skipWhile, State.past, hr, List.takeWhile_cons_of_pos hc,
    List.dropWhile_cons_of_pos hc, hlast]
  simp

/-- Both runs skip to the same boundary. The end of the first list is one in the second. -/
theorem Lock.skipWhile (hl : m.Lock true s S) {c : Token → Bool}
    (hcongr : ∀ t u, t.kind = u.kind → t.lineStart = u.lineStart → c t = c u)
    (hstop : ∀ t, Boundary t → c t = false) : m.Lock true (s.skipWhile c) (S.skipWhile c) := by
  generalize hn : s.rest = ts
  induction ts generalizing s S with
  | nil =>
    rw [skipWhile_nil hn]
    obtain ht | ⟨u, us, ht, hb⟩ := m.tail_cases
    · rwa [skipWhile_nil ((hl.nil hn).trans ht)]
    · rwa [skipWhile_stop ((hl.nil hn).trans ht) (hstop u hb)]
  | cons t ts ih =>
    obtain ⟨u, us, hR, hu, hk, hp⟩ := hl.front hn
    have hcu := hcongr t u hu.kind (hk rfl).lineStart
    cases hc : c t with
    | false => rwa [skipWhile_stop hn hc, skipWhile_stop hR (hcu ▸ hc)]
    | true =>
      rw [skipWhile_go hn hc, skipWhile_go hR (hcu ▸ hc)]
      exact ih hp rfl

theorem Lock.toBoundary (hl : m.Lock true s S) :
    m.Lock true (skipToBoundary.run s).2 (skipToBoundary.run S).2 := by
  refine hl.skipWhile (fun t u hk hs => by simp only [hk, hs]) fun t hb => ?_
  rcases hb.apart with ⟨h, -⟩ | h
  · simp [h]
  · simp [h, TokenKind.resumes]

/-- After a failed statement both runs go on at the same boundary, and have taken a token. -/
theorem Lock.recover (hl : m.Lock known s S) {left : Nat} (h0 : left ≠ 0)
    (hk : known = false → s.rest.length = left) :
    m.Lock true ((recover left).run s).2 ((recover (left + m.tail.length)).run S).2 := by
  have hrun (left : Nat) (s : State) : ((Parser.recover left).run s).2 =
    (Parser.skipToBoundary.run (s.drop (if s.rest.length = left then 1 else 0))).2 := rfl
  rw [hrun, hrun, hl.length]
  simp only [Nat.add_right_cancel_iff]
  refine Lock.toBoundary ?_
  split
  next h => exact hl.drop Nat.one_pos (by omega)
  next h =>
    cases known with
    | true => exact hl
    | false => exact absurd (hk rfl) h

theorem Outcome.recover {α β : Type} {strict known' : Bool} {f : Unit → Parser α}
    {g : Unit → Parser β} {R : α → β → Prop} {early : α → Prop} (hl : m.Lock known s S) {left : Nat}
    (h0 : left ≠ 0) (hk : known = false → s.rest.length = left)
    (h : ∀ s' S', m.Lock true s' S' →
      m.Outcome strict true R early s' ((f ()).run s') ((g ()).run S')) :
    m.Outcome strict known' R early s ((recover left >>= f).run s)
      ((recover (left + m.tail.length) >>= g).run S) := by
  rw [run_bind_some (recover_some left s), run_bind_some (recover_some _ S)]
  exact (h _ _ (hl.recover h0 hk)).back (Onward.faults_le (p := Parser.recover left) s)

theorem Outcome.orSkip {α : Type} [Located α] {p q : Parser α} [Onward p]
    (h : m.Outcome false true m.Same (fun _ => False) s (p.run s) (q.run S)) :
    m.Outcome false true m.Same (fun _ => False) s ((orSkip p).run s) ((orSkip q).run S) := by
  refine Outcome.catchFailure (fun o => by cases o <;> infer_instance) h
    (fun v w s' S' _ hv hl => .pure hl (.some hv)) fun k s' S' hl hk _ => ?_
  rw [hk rfl] at hl
  have hrun (s : State) : Parser.skipToBoundary.run s = (some (), (Parser.skipToBoundary.run s).2) := rfl
  dsimp only
  rw [run_bind_some (hrun s'), run_bind_some (hrun S')]
  exact (Outcome.pure hl.toBoundary .none).back (Nat.le_refl _)

theorem Same.takeWhile {α : Type} [Located α] {vs ws : List α} {c d : α → Bool}
    (h : m.Same vs ws) (hcd : ∀ v w, m.Same v w → c v = d w) :
    m.Same (vs.takeWhile c) (ws.takeWhile d) ∧ m.Same (vs.dropWhile c) (ws.dropWhile d) := by
  induction vs generalizing ws with
  | nil =>
    cases ws with
    | nil => exact ⟨.nil, .nil⟩
    | cons => cases h
  | cons v vs ih =>
    cases ws with
    | nil => cases h
    | cons w ws =>
      have hv : m.Same v w := (List.cons.inj h).1
      have hvs : m.Same vs ws := (List.cons.inj h).2
      cases hc : c v with
      | false =>
        have hd := (hcd v w hv).symm.trans hc
        simp only [List.takeWhile_cons, List.dropWhile_cons, hc, hd]
        exact ⟨.nil, h⟩
      | true =>
        have hd := (hcd v w hv).symm.trans hc
        simp only [List.takeWhile_cons, List.dropWhile_cons, hc, hd, if_true]
        exact ⟨.cons hv (ih hvs).1, (ih hvs).2⟩

theorem takeWhile_append_of_stop {α : Type} {c : α → Bool} (vs : List α) {ws : List α}
    (h : ∀ w ∈ ws, c w = false) : (vs ++ ws).takeWhile c = vs.takeWhile c ∧
      (vs ++ ws).dropWhile c = vs.dropWhile c ++ ws := by
  induction vs with
  | nil => cases ws <;> simp_all
  | cons v vs ih => cases hv : c v <;> simp [hv, ih]

theorem Lock.isPending (hl : m.Lock known s S) (hr : m.cut → s.rest ≠ []) :
    (∀ c d, m.Same c d → s.isPending c = S.isPending d) ∧
      ∀ c ∈ m.after, S.isPending c = false := by
  cases hs : s.rest with
  | nil =>
    have hu := m.uncut fun hc => hr hc hs
    simp [State.isPending, hs, (hl.nil hs).trans hu.1, hu.2]
  | cons t ts =>
    have ha := hl.rest
    rw [hs] at ha
    generalize hS : S.rest = us at ha
    cases ha with
    | cons hlike _ hafter _ =>
      refine ⟨fun c d hc => ?_, fun c hc => ?_⟩
      · have hstart : m.left c.span.start = m.right d.span.start :=
          congrArg (fun c : Comment => c.span.start) hc
        simp only [State.isPending, hs, hS, decide_eq_decide]
        have hl := m.left_le (a := t.span.start) (b := c.span.start)
        rw [hstart, hlike.start, m.right_le] at hl
        omega
      · simpa [State.isPending, hS] using hafter c hc

theorem Same.commentItems {cs ds : List Comment} (h : m.Same cs ds) :
    m.Same (cs.map Item.comment) (ds.map Item.comment) := by
  have h := congrArg (List.map Item.comment) h
  simpa [Same, relocate, Function.comp_def] using h

/-- The comments before the next token are placed in both runs. -/
theorem Lock.commentItems (hl : m.Lock known s S) (hr : m.cut → s.rest ≠ []) :
    ∃ is is' s' S', commentItems.run s = (some is, s') ∧ commentItems.run S = (some is', S') ∧
      m.Same is is' ∧ s'.rest = s.rest ∧ s'.faults = s.faults ∧ m.Lock known s' S' := by
  obtain ⟨cs, hcs, hsame, hbefore⟩ := hl.comments
  obtain ⟨hpending, hafter⟩ := hl.isPending hr
  obtain ⟨htake, hdrop⟩ := takeWhile_append_of_stop cs hafter
  obtain ⟨htaken, hleft⟩ := hsame.takeWhile hpending
  refine ⟨_, _, _, _, rfl, rfl, ?_, rfl, rfl, hl.rest, hl.previous, hl.fresh, hl.begun, hl.blocks,
    hl.angled, ?_, hl.faults, hl.suffix⟩
  · rw [hcs, htake]
    exact htaken.commentItems
  · exact ⟨_, by rw [hcs, hdrop], hleft, fun c hc => hbefore c ((List.dropWhile_sublist _).mem hc)⟩

theorem Lock.beginStatement (hl : m.Lock known s S) :
    m.Lock known { s with begun := false } { S with begun := false } :=
  ⟨hl.rest, hl.previous, fun hk => ⟨rfl, (hl.fresh hk).2⟩, rfl, hl.blocks, hl.angled, hl.comments,
    hl.faults, hl.suffix⟩

theorem Outcome.beginStatement {α β : Type} {strict : Bool} {f : Unit → Parser α}
    {g : Unit → Parser β} {R : α → β → Prop} {early : α → Prop}
    (h : m.Outcome strict known R early { s with begun := false }
      ((f ()).run { s with begun := false }) ((g ()).run { S with begun := false })) :
    m.Outcome strict known R early s ((beginStatement >>= f).run s)
      ((beginStatement >>= g).run S) := by
  rw [run_bind_some (show Grammar.beginStatement.run s = (some (), _) from rfl),
    run_bind_some (show Grammar.beginStatement.run S = (some (), _) from rfl)]
  exact h.over (Nat.le_refl _) rfl

end PickSyntax.Parser.Seam

namespace PickSyntax.Grammar

open PickSyntax.Parser PickSyntax.Parser.Seam

variable {m : Seam} {known : Bool} {n : Nat} {s S : State}

instance : Located BodyEnd := ⟨fun _ stop => stop⟩

theorem endStatement_alike {left : Nat} (h0 : left ≠ 0) :
    m.Alike false n (endStatement left) (endStatement (left + m.tail.length)) Eq := by
  intro s S _ hl
  refine .ite hl.mayEndStatement (fun _ => .pure hl rfl) fun _ => ?_
  refine Outcome.reportExpected hl fun s' S' _ hl' => ?_
  rw [recover_some, recover_some]
  exact .yield rfl (hl'.recover h0 (by simp))

section Statements
variable {st st' : Parser Statement} [Onward st] [Onward st']

omit [Onward st'] in
/-- One item. If a statement begins the item, the nested parsers have to agree on it. -/
theorem item_outcome (hl : m.Lock known s S) (hr : s.rest ≠ [])
    (hst : m.Outcome false known m.Same (fun _ => False) { s with begun := false }
      (st.run { s with begun := false }) (st'.run { S with begun := false })) :
    m.Outcome false known m.Same (fun _ => False) s ((item st).run s) ((item st').run S) := by
  refine .look ?_
  have hlabel := hl.label? hr
  obtain ⟨hL, hL'⟩ | ⟨l, l', hL, hL', hlabel⟩ := hlabel.option <;> rw [hL, hL']
  · have hleft : s.rest.length ≠ 0 := by simpa using hr
    refine .beginStatement (Outcome.catchFailure ?_ hst ?_ ?_)
    · intro o
      cases o <;> infer_instance
    · intro v w s' S' _ hv hl'
      rw [hl.length]
      refine ((endStatement_alike hleft).bind fun _ _ _ => .pure ?_) s' S' (Nat.lt_succ_self _) hl'
      simpa [Same, relocate] using hv
    · intro k s' S' hl' _ hk
      rw [hl.length]
      exact .recover hl' hleft hk fun s'' S'' hl'' => .pure hl'' rfl
  · obtain ⟨t, ts, hr, -, -⟩ := rest_of_label? hL
    exact .skipOne hl hr fun _ _ _ _ _ hp => .pure hp (by simp_all [Same, relocate])

/-- A body that has met the end of the tokens. -/
def RanOut (r : List Item × BodyEnd) : Prop := r.2 = .exhausted

omit [Onward st] [Onward st'] in
theorem bodyStep_at_end (st : Parser Statement) (block : Block) (items : List Item) (hr : s.rest = []) :
    (bodyStep st block items).run s =
      (some (.done (items ++ (s.comments.takeWhile s.isPending).map Item.comment, .exhausted)),
        { s with comments := s.comments.dropWhile s.isPending }) := by
  simp [bodyStep, commentItems, pendingComments, acceptAnywhere, run_bind, State.isAt, State.kind?,
    hr]

omit [Onward st] [Onward st'] in
/-- A body that finds no token runs out at once. -/
theorem body_at_end (st : Parser Statement) (block : Block) (hr : s.rest = []) : ∃ is s',
    (body st block).run s = (some (is, .exhausted), s') ∧ s'.faults = s.faults := by
  have hstep := bodyStep_at_end (s := { s with blocks := block :: s.blocks }) st block [] hr
  rw [body, run_inBlock, loop_run, hstep]
  exact ⟨_, _, rfl, rfl⟩

variable (hst : m.Alike false n st st' m.Same) (block : Block)
include hst

omit [Onward st'] in
theorem item_alike (hs : s.rest.length < n) (hl : m.Lock true s S) (hr : s.rest ≠ []) :
    m.Outcome false true m.Same (fun _ => False) s ((item st).run s) ((item st').run S) :=
  item_outcome hl hr (hst _ _ hs hl.beginStatement)

omit [Onward st'] in
theorem bodyStep_outcome {items items' : List Item} (hi : m.Same items items')
    (hs : s.rest.length < n) (hl : m.Lock true s S) :
    m.Outcome false true (Step.Like m.Same m.Same) (Step.Says (fun _ => False) RanOut) s
      ((bodyStep st block items).run s) ((bodyStep st' block items').run S) := by
  by_cases hc : m.cut ∧ s.rest = []
  · rw [bodyStep_at_end st block items hc.2]
    exact .early hc.1 rfl rfl
  · obtain ⟨is, is', s₁, S₁, hrun, hrun', his, hrest, hfaults, hl₁⟩ :=
      hl.commentItems (not_and.mp hc)
    have hc₁ : m.cut → s₁.rest ≠ [] := hrest ▸ not_and.mp hc
    have hs₁ : s₁.rest.length < n := hrest ▸ hs
    have hitems := hi.append his
    unfold bodyStep
    rw [run_bind_some hrun, run_bind_some hrun']
    have hle : s.faults.length ≤ s₁.faults.length := Nat.le_of_eq (congrArg List.length hfaults.symm)
    refine Outcome.back ?_ hle
    refine .ifAnywhere hl₁ hc₁ (fun _ _ _ hl => .pure hl hitems) fun _ => .look ?_
    refine .ite (hl₁.isEmpty hc₁) (fun _ => .pure hl₁ (.pair hitems rfl)) fun hempty => ?_
    have hne : s₁.rest ≠ [] := by simpa using hempty
    refine .ite (hl₁.closes hc₁ block) (fun _ => .pure hl₁ (.pair hitems rfl)) fun _ => ?_
    refine .enclosing hl₁ fun outer => ?_
    have hany : closesAny s₁ outer = closesAny S₁ outer := by
      simp only [closesAny, funext (hl₁.closes hc₁)]
    refine .ite hany (fun _ => .pure hl₁ (.pair hitems rfl)) fun _ => ?_
    refine (item_alike hst hs₁ hl₁ hne).bind (fun o o' s₂ S₂ _ ho hl₂ => .pure hl₂ ?_) fun _ _ h => h.elim
    refine hitems.append ?_
    obtain ⟨rfl, rfl⟩ | ⟨i, i', rfl, rfl, hi⟩ := ho.option
    · exact .nil
    · exact .cons hi .nil

theorem body_outcome (hs : s.rest.length < n) (hl : m.Lock true s S) :
    m.Outcome false true m.Same RanOut s ((body st block).run s) ((body st' block).run S) := by
  refine .inBlock (Outcome.loop (I := m.Same) (n := n) ?_ hs .nil ?_)
  · exact fun _ _ s S hs hi hl => bodyStep_outcome hst block hi hs hl
  · rw [hl.blocks]
    exact hl.setBlocks rfl

/-- A body and what its opener does then. A body that has met its terminator has a token next;
where one has run out, the opener has to end early, too. -/
theorem body_then {α β : Type} {f : List Item × BodyEnd → Parser α}
    {g : List Item × BodyEnd → Parser β} {R : α → β → Prop} {early : α → Prop}
    [∀ r, Onward (f r)] [∀ r, Onward (g r)] (hs : s.rest.length < n) (hl : m.Lock true s S)
    (h : ∀ is is' stop s' S', m.Same is is' → s'.rest.length < n →
      (stop = .closed → s'.rest ≠ []) → m.Lock true s' S' →
      m.Outcome false true R early s' ((f (is, stop)).run s') ((g (is', stop)).run S'))
    (he : ∀ is s', EndsEarly early (f (is, .exhausted)) s') :
    m.Outcome false true R early s ((body st block >>= f).run s) ((body st' block >>= g).run S) := by
  refine (body_outcome hst block hs hl).bind (fun r r' s' S' hrun hr hl' => ?_) fun r s' hr => ?_
  · obtain ⟨is, stop⟩ := r
    obtain ⟨is', stop'⟩ := r'
    obtain ⟨his, hstop⟩ := Prod.mk.inj hr
    have hstop : stop = stop' := hstop
    have hle := Onward.rest_le (p := body st block) s
    rw [hrun] at hle
    subst hstop
    refine h is is' stop s' S' his (Nat.lt_of_le_of_lt hle hs) (fun hclosed => ?_) hl'
    obtain ⟨t, ts, ht, -⟩ := rest_of_closes (body_closed st block s _ s' hrun hclosed)
    simp [ht]
  · obtain ⟨is, stop⟩ := r
    have hstop : stop = .exhausted := hr
    exact hstop ▸ he is s'

end Statements

end PickSyntax.Grammar
