import PickSyntax.Proofs.Parser.Alike
import PickSyntax.Proofs.Parser.Recursion

/-!
# Expressions across an end

Expressions agree in the strict sense: where the tokens end too early the first run fails with
a fault, and the second run fails or has gone on beyond the end. So the attempt at a reference
`NAME<…>` comes to the same in both runs, unless such a reference is written across the end.
-/
namespace PickSyntax.Grammar

open PickSyntax.Parser PickSyntax.Parser.Seam

variable {m : Seam} {strict known : Bool} {n : Nat} {s S : State} {t u : Token} {ts : List Token}

section Nested
variable {nested nested' : AtLevel} [∀ level, Onward (nested level)]
variable [∀ level, Onward (nested' level)]
variable (hn : ∀ level, m.Alike true n (nested level) (nested' level) m.Same)
include hn

omit [∀ level, Onward (nested' level)] in
theorem chainStep_alike {level : Nat} {e e' : Expr} (he : m.Same e e') :
    m.Alike true n (chainStep nested level e) (chainStep nested' level e')
      (Step.Like m.Same m.Same) := by
  intro s S hs hl
  refine .look ?_
  rw [← hl.angled, ← hl.rest.infixAt]
  rcases hop : infixAt? s.angled s.rest with _ | ⟨op, width⟩
  · exact .pure hl he
  · obtain ⟨us, vs, hts, hw, hsp⟩ := spelling_of_binaryAt? (binaryAt?_of_infixAt? hop)
    have hpos : 0 < width := by
      rw [← hw]
      cases hsp <;> simp
    have hle : width ≤ s.rest.length := by simp [hts, ← hw]
    by_cases hlevel : op.level ≤ level
    · simp only [hlevel, if_true]
      exact .pure hl he
    · simp only [hlevel, if_false]
      refine .skip hl hpos hle fun s' S' hlt hl' => ?_
      refine ((hn op.rightLevel).bind fun r r' hr => .pure ?_) s' S' (Nat.lt_trans hlt hs) hl'
      have := he.exprSpan.merge hr.exprSpan
      simp_all [Step.Like, Same, relocate]

theorem chain_alike {level : Nat} {e e' : Expr} (he : m.Same e e') :
    m.Alike true n (chain nested level e) (chain nested' level e') m.Same :=
  Alike.loop (fun _ _ he => chainStep_alike hn he) he

theorem oneOrTwo_alike : m.Alike true n (oneOrTwo nested) (oneOrTwo nested') m.Same :=
  (hn 0).bind fun _ _ hv => (hn 0).afterComma?.bind fun _ _ hw => .pure (.pair hv hw)

theorem enclosed_alike {y : Symbol} (hy : y ≠ .semicolon) :
    m.Alike true n (enclosed nested y) (enclosed nested' y) m.Same :=
  .withAngled ((oneOrTwo_alike hn).bind fun _ _ hv =>
    (Alike.requireSymbol hy).bind fun _ _ _ => .pure hv)

theorem subscripts_alike : m.Alike true n (subscripts nested) (subscripts nested') m.Same := by
  refine (hn 0).bind fun _ _ hattr => (Alike.acceptSymbol (y := .comma) (by decide)).bind
    fun _ _ hb => .ite hb ?_ (.pure (.pair hattr (.pair .none .none)))
  exact (hn 0).bind fun _ _ hvalue => (hn 0).afterComma?.bind fun _ _ hsub =>
    .pure (.pair hattr (.pair (.some hvalue) hsub))

/-- After the `<`. -/
theorem angleSubscripts_alike (hs : s.rest.length < n) (hl : m.Lock true s S)
    (hr : s.rest = t :: ts) :
    m.Outcome true true m.Same (fun _ => False) s ((angleSubscripts nested).run s)
      ((angleSubscripts nested').run S) := by
  refine .skipOne hl hr fun u us _ _ _ hp => ?_
  have hlt : (s.past t ts).rest.length < n := Nat.lt_of_succ_lt (by rwa [hr] at hs)
  refine (Alike.bind (Alike.withAngled (subscripts_alike hn)) fun _ _ hv => ?_) _ _ hlt hp
  refine (Alike.acceptSymbol (y := .greater) (by decide)).bind fun _ _ hb => .ite hb ?_ .fail
  exact fun s S hs hl => .ite hl.operandNext (fun _ => Alike.fail s S hs hl) fun _ => .pure hl hv

omit hn [∀ level, Onward (nested level)] [∀ level, Onward (nested' level)] in
/-- A reference that closes is written by the tokens that were taken. -/
theorem spells_of_angleSubscripts {us cs : List Token} {c : Token} {S' : State}
    {w : Expr × Option Expr × Option Expr} (hu : u.kind.isName = true) (hopen : us = c :: cs)
    (hc : c.kind = .symbol .less)
    (hrun : (angleSubscripts expressionAt).run (S.past u us) = (some w, S')) :
    ∃ ts span, us = ts ++ S'.rest ∧
      Spells (u :: ts) [.dynamic u.text w.1 w.2.1 w.2.2 span] ∧
      Exact (u :: ts) (.dynamic u.text w.1 w.2.1 w.2.2 span) := by
  obtain ⟨ts, ht, -, o, vs, d, rfl, hless, hd, hsp, hv⟩ := angleSubscripts_yields
    (nested_listed fun level s _ => expressionAt_meets level s) (s := S.past u us) hopen hc
    (Nat.lt_succ_self _) w S' hrun
  obtain ⟨ts', ht', -, o', vs', d', rfl, -, -, hover, -⟩ := angleSubscripts_yields
    (nested_over fun level s _ => expressionAt_exact level s) (s := S.past u us) hopen hc
    (Nat.lt_succ_self _) w S' hrun
  have hsame : o :: (vs ++ [d]) = o' :: (vs' ++ [d']) :=
    List.append_cancel_right (ht.rest.symm.trans ht'.rest)
  have hexact : Exact (u :: ([o'] ++ (vs' ++ [d']))) (.dynamic u.text w.1 w.2.1 w.2.2
      ⟨u.span.start, max d'.span.stop u.span.start⟩) :=
    .closed hover rfl (by simp [Expr.extent, Expr.extents])
  refine ⟨_, ⟨u.span.start, max d'.span.stop u.span.start⟩, ht.rest, ?_, ?_⟩
  · exact .dynamic hu hless hsp.1 hv hd
  · rw [hsame]
    exact hexact

omit hn [∀ level, Onward (nested level)] [∀ level, Onward (nested' level)] in
/-- A token of a reference that begins a line crosses it in a subscript. -/
theorem crosses_of_angleSubscripts {tokens us cs ts : List Token} {c : Token} {S' : State}
    {w : Expr × Option Expr × Option Expr} (ho : Ordered 0 tokens)
    (hspaced : ∀ t ∈ tokens.tail, t.lineStart = true → t.spaced = true)
    (hsuffix : u :: us <:+ tokens) (hopen : us = c :: cs) (hline : c.lineStart = false)
    (hrun : (angleSubscripts expressionAt).run (S.past u us) = (some w, S'))
    (htaken : us = ts ++ S'.rest) (ht : t ∈ ts) (hl : t.lineStart = true) :
    ∃ x ∈ Expr.nodesOf (w.1 :: (w.2.1.toList ++ w.2.2.toList)), x.Crosses t := by
  have hamid : State.Amid tokens (us.length + 1) (S.past u us) :=
    ⟨(List.suffix_cons u us).trans hsuffix, rfl, Nat.lt_succ_self _⟩
  have hreads : State.Reads tokens u.span.start (S.past u us)
      (w.1 :: (w.2.1.toList ++ w.2.2.toList)) S' :=
    angleSubscripts_lined
      (fun level s hs => expressionAt_lined ho hspaced level hs.within (.inl hs.begun)) hamid hopen
      hline w S' hrun
  obtain ⟨taken, hkept, hkeeps⟩ := hreads.keeps
  obtain rfl : taken = ts := List.append_cancel_right (hkept.symm.trans htaken)
  -- The token is not the one at which the reference begins.
  have hordered : Ordered 0 (u :: us) := ho.suffix hsuffix
  have hapart := List.rel_of_pairwise_cons hordered.apart (htaken ▸ List.mem_append_left _ ht)
  have hbound := hordered.bound u (List.mem_cons_self ..)
  exact (hkeeps t ht hl).resolve_left (by omega)

omit hn [∀ level, Onward (nested level)] [∀ level, Onward (nested' level)] in
/-- The tokens that bring the second run beyond the end go on with the first one behind it. -/
theorem taken_of_beyond {S' : State} (hl : m.Lock known s S) (hs : s.rest ≠ [])
    (hS : S.rest = u :: (ts ++ S'.rest)) (hb : m.Beyond S') :
    ∃ vs t more, ts = vs ++ t :: more ∧ m.tail = t :: (more ++ S'.rest) := by
  obtain ⟨vs, hvs⟩ := hl.rest.ends
  have hlength := hl.length
  have hpos := List.length_pos_iff.mpr hs
  rw [hvs, List.length_append] at hlength
  obtain ⟨v, vs, rfl⟩ := List.exists_cons_of_length_pos (l := vs) (by omega)
  rw [hS, List.cons_append] at hvs
  unfold Seam.Beyond at hb
  obtain ⟨more, rfl, hmore⟩ | ⟨more, rfl, hmore⟩ :=
    List.append_eq_append_iff.mp (List.cons.inj hvs).2
  · rw [hmore, List.length_append] at hb
    omega
  · cases more with
    | nil =>
      rw [hmore] at hb
      exact absurd hb (Nat.lt_irrefl _)
    | cons t more => exact ⟨vs, t, more, rfl, hmore⟩

omit hn [∀ level, Onward (nested level)] [∀ level, Onward (nested' level)] in
/-- The second run closes no reference beyond the end that was opened before it. -/
theorem not_beyond_of_angleSubscripts {c : Token} {us cs : List Token} {S' : State}
    {w : Expr × Option Expr × Option Expr} (hl : m.Lock known s S) (hs : s.rest ≠ [])
    (hS : S.rest = u :: us) (hu : u.kind.isName = true) (hopen : us = c :: cs)
    (hc : c.kind = .symbol .less) (hattached : attachment us ≠ .none)
    (hrun : (angleSubscripts expressionAt).run (S.past u us) = (some w, S')) :
    ¬m.Beyond S' := by
  intro hb
  have hcut : m.cut := by
    by_contra hn
    rw [Seam.Beyond, (m.uncut hn).1] at hb
    exact Nat.not_lt_zero _ hb
  obtain ⟨before, hbefore⟩ := hl.suffix
  rw [hS] at hbefore
  have hsuffix : u :: us <:+ m.whole := ⟨before, hbefore⟩
  have hspaced (t : Token) (ht : t ∈ us) : t.lineStart = true → t.spaced = true :=
    m.spaced hcut t (tail_subset_of_suffix hsuffix ht)
  have hline : c.lineStart = false :=
    attachment_onLine (fun t ht => hspaced t (List.mem_of_mem_head? ht)) hattached c
      (by rw [hopen]; rfl)
  obtain ⟨ts, span, htaken, hspells, hexact⟩ := spells_of_angleSubscripts hu hopen hc hrun
  obtain ⟨vs, t, more, rfl, htail⟩ := taken_of_beyond hl hs (htaken ▸ hS) hb
  have hbegins : t.lineStart = true := by
    obtain ⟨hbegins, -⟩ | hsep := (m.boundary t (by rw [htail]; rfl)).apart
    · exact hbegins
    · exact absurd hsep (hspells.kind_ne_semicolon t (by simp))
  obtain ⟨x, hx, hcross⟩ := crosses_of_angleSubscripts (t := t) (m.ordered hcut) (m.spaced hcut)
    hsuffix hopen hline hrun htaken (by simp) hbegins
  have hnode : x ∈ (Expr.dynamic u.text w.1 w.2.1 w.2.2 span).nodes := by
    simp only [Expr.nodesOf, Expr.nodesOf_append, Expr.nodesOf?_eq, Expr.nodes, List.mem_cons,
      List.mem_append] at hx ⊢
    tauto
  refine m.unspanned ⟨before, u :: vs, t, more, S'.rest, u.text, w.1, w.2.1, w.2.2, span, ?_,
    List.cons_ne_nil _ _, ?_, hspells, hexact, x, hnode, hcross⟩
  · rw [← hbefore, htaken]
    simp
  · rw [htail]

omit hn [∀ level, Onward (nested level)] [∀ level, Onward (nested' level)] in
/-- What reads expressions below `n` tokens climbs there. -/
theorem climbed_of_agree (h : ∀ level, Agree n (nested level) (expressionAt level)) (level : Nat)
    (s : State) (hs : s.rest.length < n) : Meets (nested level) s (Climbed level) := by
  have hmeets := expressionAt_meets level s
  unfold Meets at hmeets ⊢
  rwa [(h level).run s hs]

section Ends
variable (hp : ∀ level, Agree n (nested level) (expressionAt level))
variable (hq : ∀ level, Agree (n + m.tail.length) (nested' level) (expressionAt level))
include hp hq

theorem arguments_alike : m.Alike true n (arguments nested) (arguments nested') m.Same := by
  intro s S hs hl
  by_cases hc : m.cut ∧ s.rest = []
  · refine .atEnd hl hc.1 hc.2 (arguments_meets (nested_listed (climbed_of_agree hp)) hs) ?_
      (arguments_meets (nested_listed (climbed_of_agree hq)) ?_) ?_
    · rintro ts _ _ ⟨us, c, rfl, -⟩
      simp
    · rw [hl.length]
      exact Nat.add_lt_add_right hs _
    · rintro ts _ _ ⟨us, c, rfl, -⟩
      simp
  · refine .withAngled hl ?_
    have hl' := hl.setAngled false
    refine .ifAnywhere hl' (not_and.mp hc) (fun _ _ _ hl => .pure hl .nil) fun _ => ?_
    exact ((hn 0).commaList.bind fun _ _ hv => (Alike.requireSymbol (y := .rightParen) (by decide)).bind
      fun _ _ _ => .pure hv) _ _ hs hl'

/-- A name with what is attached to it. Only a name that is called may be any word. -/
theorem named_alike (hs : s.rest.length ≤ n) (hl : m.Lock known s S) (hr : s.rest = t :: ts)
    (hname : attachment ts ≠ .call → t.kind.isName = true) :
    m.Outcome true known m.Same (fun _ => False) s ((named nested).run s)
      ((named nested').run S) := by
  have hlt : (s.past t ts).rest.length < n := by rwa [hr] at hs
  refine .next hl hr fun u us hR hu _ hp' => .look ?_
  have hopening := opening_of_attachment ts
  have hatt : attachment ts = attachment us := hp'.rest.attachment
  rw [show (S.past u us).rest = us from rfl, show (s.past t ts).rest = ts from rfl, ← hatt]
  cases ha : attachment ts <;> rw [ha] at hopening hname
  case call =>
    obtain ⟨c, cs, rfl, -⟩ := hopening
    refine .skipOne hp' rfl fun v vs _ _ _ hp'' => ?_
    have hlt := Nat.lt_of_succ_lt hlt
    refine ((arguments_alike hn hp hq).bind fun as as' has s S hs hl => .look (.pure hl ?_))
      _ _ hlt hp''
    have := hl.since hu.start
    simp_all [Same, relocate, hu.text]
  case dynamic =>
    obtain ⟨c, cs, rfl, hc⟩ := hopening
    have hname : u.kind.isName = true := hu.kind ▸ hname (by simp)
    obtain ⟨c', cs', hR', hlike, -, -⟩ := hp'.front (show _ = c :: cs from rfl)
    have hc' : c'.kind = .symbol .less := hlike.kind ▸ hc
    have hattached : attachment us ≠ .none := by simp [← hatt, ha]
    have hlt' : (S.past u us).rest.length < n + m.tail.length := by
      have hlength := hl.length
      rw [hR, hr] at hlength
      rw [hr] at hs
      simp only [State.past, List.length_cons] at hlength hs ⊢
      omega
    obtain ⟨o, o', s', S', hrun, hrun', ho, hl'⟩ := Outcome.attempt hp'
      (angleSubscripts_alike hn hlt hp' rfl) fun w S' hrun => by
        have hsame : Agree (n + m.tail.length) (angleSubscripts nested')
            (angleSubscripts expressionAt) := angleSubscripts_agree
        rw [hsame.run _ hlt'] at hrun
        exact not_beyond_of_angleSubscripts hl (by simp [hr]) hR hname hR' hc' hattached hrun
    have hle := Onward.faults_le (p := attempt (angleSubscripts nested)) (s.past t (c :: cs))
    rw [hrun] at hle
    dsimp only
    rw [run_bind_some hrun, run_bind_some hrun']
    refine Outcome.back ?_ hle
    obtain ⟨rfl, rfl⟩ | ⟨v, w, rfl, rfl, hvw⟩ := ho.option
    · exact .pure hl' (by simpa [Same, relocate, hu.text] using hu.span)
    · refine .look (.pure hl' ?_)
      have := hl'.since hu.start
      simp_all [Same, relocate, hu.text]
  case substring =>
    obtain ⟨c, cs, rfl, -⟩ := hopening
    refine .skipOne hp' rfl fun v vs _ _ _ hp'' => ?_
    have hlt := Nat.lt_of_succ_lt hlt
    refine ((enclosed_alike hn (y := .rightBracket) (by decide)).bind fun as as' has s S hs hl =>
      .look (.pure hl ?_)) _ _ hlt hp''
    have := hl.since hu.start
    simp_all [Same, relocate, hu.text]
  case none =>
    have := hu.span
    exact .pure hp' (by simp_all [Same, relocate, hu.text])

omit hp hq in
theorem cursor_alike (hs : s.rest.length ≤ n) (hl : m.Lock known s S) (hr : s.rest = t :: ts) :
    m.Outcome true known m.Same (fun _ => False) s ((cursor nested).run s)
      ((cursor nested').run S) := by
  have hlt : (s.past t ts).rest.length < n := by rwa [hr] at hs
  refine .next hl hr fun u us _ hu _ hp => ?_
  refine (Alike.bind (Alike.require (k := .symbol .leftParen) (by simp)) fun _ _ _ => ?_) _ _ hlt hp
  refine (enclosed_alike hn (y := .rightParen) (by decide)).bind fun v w hv s S _ hl => .look ?_
  have := hl.since hu.start
  exact .pure hl (by simp_all [Same, relocate])

omit hp hq [∀ level, Onward (nested' level)] in
theorem parenthesized_alike (hs : s.rest.length ≤ n) (hl : m.Lock known s S)
    (hr : s.rest = t :: ts) :
    m.Outcome true known m.Same (fun _ => False) s ((parenthesized nested).run s)
      ((parenthesized nested').run S) := by
  have hlt : (s.past t ts).rest.length < n := by rwa [hr] at hs
  refine .next hl hr fun u us _ hu _ hp => ?_
  refine (Alike.bind (R := m.Same) (Alike.withAngled ?_) fun v w hv s S _ hl => .look ?_) _ _ hlt hp
  · exact (hn 0).bind fun _ _ hv => (Alike.requireSymbol (y := .rightParen) (by decide)).bind
      fun _ _ _ => .pure hv
  · have := hl.since hu.start
    exact .pure hl (by simp_all [Same, relocate])

omit hn hp hq [∀ level, Onward (nested level)] [∀ level, Onward (nested' level)] in
theorem invalidOperand_alike (hl : m.Lock known s S) (hu : m.Like t u) :
    m.Outcome true known m.Same (fun _ => False) s ((invalidOperand t).run s)
      ((invalidOperand u).run S) := by
  refine .fail (hl.addFault ?_) id fun _ => rfl
  simpa [Same, relocate, Fault.relocate, hu.describe] using hu.span

theorem primary_alike (hs : s.rest.length ≤ n) (hl : m.Lock known s S) :
    m.Outcome true known m.Same (fun _ => False) s ((primary nested).run s)
      ((primary nested').run S) := by
  by_cases hc : m.cut ∧ s.rest = []
  · have hS : S.rest.length ≤ n + m.tail.length := by
      rw [hl.length]
      exact Nat.add_le_add_right hs _
    exact .atEnd hl hc.1 hc.2 (primary_meets (climbed_of_agree hp) hs)
      (fun _ _ _ h => h.spells.ne_nil (by simp)) (primary_meets (climbed_of_agree hq) hS)
      fun _ _ _ h => h.spells.ne_nil (by simp)
  refine .look ?_
  obtain ⟨hr, hR⟩ | ⟨t, ts, u, us, hr, hR, hu, hk⟩ := hl.both (not_and.mp hc) <;> rw [hr, hR]
  · exact .expected hl
  have hline : (t.lineStart && s.begun) = (u.lineStart && S.begun) := by
    cases known with
    | false => simp [← hl.begun, (hl.fresh rfl).1]
    | true => rw [(hk rfl).lineStart, hl.begun]
  refine .ite hline (fun _ => .expected hl) fun _ => ?_
  rw [← hu.kind]
  have hspan := hu.span
  cases ht : t.kind with
  | number =>
    exact .skipOne hl hr fun _ _ hR' _ _ hp => .pure hp (by simp_all [Same, relocate, hu.text])
  | string q =>
    exact .skipOne hl hr fun _ _ hR' _ _ hp => .pure hp (by simp_all [Same, relocate, hu.text])
  | systemName =>
    exact .skipOne hl hr fun _ _ hR' _ _ hp => .pure hp (by simp_all [Same, relocate, hu.text])
  | symbol y =>
    cases y
    case atSign => exact cursor_alike hn hs hl hr
    case leftParen => exact parenthesized_alike hn hs hl hr
    all_goals exact invalidOperand_alike hl hu
  | identifier => exact named_alike hn hp hq hs hl hr fun _ => by rw [ht]; rfl
  | keyword k =>
    obtain ⟨u', us', hR', -, -, hpast⟩ := hl.front hr
    obtain ⟨rfl, rfl⟩ : u = u' ∧ us = us' := by simpa [hR] using hR'
    have hparen : isBeforeParen (t :: ts) = isBeforeParen (u :: us) := hpast.rest.isBeforeParen t u
    refine .ite (by rw [hparen]) (fun hw => ?_) fun _ => invalidOperand_alike hl hu
    refine named_alike hn hp hq hs hl hr fun hcall => ?_
    rw [ht]
    simp only [Bool.or_eq_true, Bool.and_eq_true] at hw
    exact hw.resolve_right fun h => hcall (attachment_of_isBeforeParen h.2)

theorem operand_alike (hs : s.rest.length ≤ n) (hl : m.Lock known s S) :
    m.Outcome true known m.Same (fun _ => False) s ((operand nested).run s)
      ((operand nested').run S) := by
  by_cases hc : m.cut ∧ s.rest = []
  · have hS : S.rest.length ≤ n + m.tail.length := by
      rw [hl.length]
      exact Nat.add_le_add_right hs _
    exact .atEnd hl hc.1 hc.2 (operand_meets (climbed_of_agree hp) hs)
      (fun _ _ _ h => h.spells.ne_nil (by simp)) (operand_meets (climbed_of_agree hq) hS)
      fun _ _ _ h => h.spells.ne_nil (by simp)
  refine .look ?_
  rw [← hl.kind? (not_and.mp hc)]
  rcases hop : s.kind?.bind unaryOf? with _ | op
  · exact primary_alike hn hp hq hs hl
  · cases hr : s.rest with
    | nil => simp [State.kind?, hr] at hop
    | cons t ts =>
      refine .next hl hr fun u us _ hu _ hpast => ?_
      refine ((hn UnaryOp.level).bind fun e e' he => .pure ?_) _ _ (by rwa [hr] at hs) hpast
      have hstart := hu.start
      have hstop := he.exprSpan.stop
      simp_all [Same, relocate, Span.relocate]

theorem expressionStep_alike (level : Nat) (hs : s.rest.length ≤ n) (hl : m.Lock known s S) :
    m.Outcome true known m.Same (fun _ => False) s ((expressionStep nested level).run s)
      ((expressionStep nested' level).run S) := by
  refine (operand_alike hn hp hq hs hl).bind (fun e e' s' S' hrun he hl' => ?_) fun _ _ h => h.elim
  refine chain_alike hn he s' S' ?_ hl'
  obtain ⟨ts, ht, -, hw⟩ := (operand_meets (climbed_of_agree hp) hs).yields e s' hrun
  exact Nat.lt_of_lt_of_le (ht.length_lt (hw.spells.ne_nil (by simp))) hs

end Ends
end Nested

theorem expressionAt_outcome (level : Nat) (hl : m.Lock known s S) :
    m.Outcome true known m.Same (fun _ => False) s ((expressionAt level).run s)
      ((expressionAt level).run S) := by
  refine Outcome.knot (fun _ _ _ => inferInstance) ?_ level hl
  intro n nested nested' _ _ hrun hrun' hn known level s S hs hl
  exact expressionStep_alike hn (fun level => ⟨hrun level⟩) (fun level => ⟨hrun' level⟩) level
    hs hl

theorem expressionAt_alike (level : Nat) :
    m.Alike strict n (expressionAt level) (expressionAt level) m.Same :=
  fun _ _ _ hl => (expressionAt_outcome level hl).loosen

theorem expression_alike : m.Alike strict n expression expression m.Same :=
  expressionAt_alike 0

theorem expression?_alike : m.Alike strict n expression? expression? m.Same :=
  fun s S hs hl => .ite hl.expressionNext
    (fun _ => expression_alike.bind (fun _ _ he => .pure (.some he)) s S hs hl)
    fun _ => .pure hl .none

end PickSyntax.Grammar
