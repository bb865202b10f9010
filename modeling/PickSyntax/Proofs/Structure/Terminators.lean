import PickSyntax.Proofs.Structure.Stretches

/-!
# Every block has a terminator of its own

Where the grammar records nothing, each statement that is written as a block is closed by
terminators that no other statement has. They stand inside its range, behind the items of its
bodies and apart from all statements in it. Of a `THEN` block that `END` closes in front of an
`ELSE` with one statement, that statement alone stands behind the `END`.
-/
namespace PickSyntax

/-- The statement is written as a block. -/
def Form.isBlock (f : Form) : Bool :=
  match f with
  | .forNext .. | .loop .. | .beginCase _ => true
  | f => f.clause?.any fun c => c.layout = .block

/-- The tokens in front of `after` are the terminator of the form. -/
inductive Form.ClosedBy : Form → List Token → List Token → Prop
  | next {t : Token} {after : List Token} {counter : String} {start limit : Expr}
      {step : Option Expr} {guard : Option LoopGuard} {body : List Item} :
      t.kind = .keyword .NEXT →
      ClosedBy (.forNext counter start limit step guard body none) [t] after
  | nextNamed {t u : Token} {after : List Token} {counter : String} {start limit : Expr}
      {step : Option Expr} {guard : Option LoopGuard} {body : List Item} :
      t.kind = .keyword .NEXT → u.kind.isName = true →
      ClosedBy (.forNext counter start limit step guard body (some u.text)) [t, u] after
  | repeat {t : Token} {after : List Token} {before behind : List Item}
      {guard : Option LoopGuard} : t.kind = .keyword .REPEAT →
      ClosedBy (.loop before guard behind) [t] after
  | endCase {t u : Token} {after : List Token} {cases : List CaseArm} :
      t.kind = .keyword .END → u.kind = .keyword .CASE → ClosedBy (.beginCase cases) [t, u] after
  | loneEnd {t : Token} {after : List Token} {f : Form} {c : Clause} : f.clause? = some c →
      c.layout = .block → LoneEnd t after → ClosedBy f [t] after

/-- What follows is an `ELSE` with the one statement of that branch, and the items are those of
the other branch. -/
def Clause.EndElse (c : Clause) (after : List Token) (is : List Item) : Prop :=
  ∃ t u us st, after = t :: u :: us ∧ Leads [.ELSE] t (u :: us) ∧
    c.thenBody = some is ∧ c.elseBody = some [.statement st] ∧ st.span.start = u.span.start

theorem Form.isBlock_of_attachments {f : Form} {a : Attachments} (h : f.attachments? = some a) :
    f.isBlock = a.clause.any fun c => c.layout = .block := by
  rw [← Form.clause?_of_attachments h]
  cases f <;> first | rfl | cases h

/-- The items that have to stand in front of a terminator: all items of the form, or those of
the `THEN` branch where an `ELSE` with one statement follows. -/
inductive Form.Precede (f : Form) (after : List Token) : List Item → Prop
  | all : Precede f after f.items
  | endElse {c : Clause} {is : List Item} : f.clause? = some c → c.EndElse after is →
      Precede f after is

/-- The tokens `ts` terminate the statement. -/
structure Statement.Terminated (tokens : List Token) (st : Statement) (ts : List Token) :
    Prop where
  /-- They are the right tokens, behind the items of the statement. -/
  closed : ∃ before after is, tokens = before ++ (ts ++ after) ∧ st.form.ClosedBy ts after ∧
    st.form.Precede after is ∧ ∀ i ∈ is, ∀ t ∈ ts, i.span.stop ≤ t.span.start
  /-- They lie in the range of the statement. -/
  inside : ∀ t ∈ ts, st.span.start ≤ t.span.start ∧ t.span.stop ≤ st.span.stop
  /-- Without branches the statement ends with them. -/
  last : st.form.clause? = none → ∀ t ∈ ts.getLast?, t.span.stop = st.span.stop
  /-- They lie outside of the ranges of the statements in it. -/
  outside : ∀ n ∈ st.nested, ∀ t ∈ ts, n.span.stop ≤ t.span.start ∨ t.span.stop ≤ n.span.start

/-- The tokens `ts` in front of `after` stand behind the items, and divide the statements. -/
inductive Divided (xs ys : List Token) :
    List Statement → List Item → List Token → List Token → Prop
  | intro {sts tss : List Statement} {is js : List Item} {ts after : List Token} :
      Stretch xs (ts ++ after) sts is → Stretch after ys tss js →
      Divided xs ys (sts ++ tss) is ts after

namespace Divided
variable {us vs xs ys zs ts after : List Token} {sts tss : List Statement} {is js : List Item}

/-- Nothing stands behind the last token. -/
theorem last (h : Stretch xs (ts ++ ys) sts is) : Divided xs ys sts is ts ys := by
  have := Divided.intro h Stretch.nil
  rwa [List.append_nil] at this

theorem widen (h : Divided us vs sts is ts after) (hx : us <:+ xs) (hy : ys <:+ vs) :
    Divided xs ys sts is ts after := by
  obtain ⟨h, k⟩ := h
  exact .intro (h.widen hx List.suffix_rfl) (k.widen List.suffix_rfl hy)

theorem behind (h : Stretch xs ys sts is) (k : Divided ys zs tss js ts after) :
    Divided xs zs (sts ++ tss) (is ++ js) ts after := by
  obtain ⟨k, l⟩ := k
  rw [← List.append_assoc]
  exact .intro (h.append k) l

theorem ends (h : Divided xs ys sts is ts after) (ho : Ordered 0 xs) :
    ∀ i ∈ is, ∀ t ∈ ts, i.span.stop ≤ t.span.start := by
  obtain ⟨h, -⟩ := h
  intro i hi t ht
  exact h.ends ho i hi t (List.mem_append_left _ ht)

theorem outside (h : Divided xs ys sts is ts after) (ho : Ordered 0 xs) :
    ∀ n ∈ sts, ∀ t ∈ ts, n.span.stop ≤ t.span.start ∨ t.span.stop ≤ n.span.start := by
  obtain ⟨h, k⟩ := h
  intro n hn t ht
  obtain hn | hn := List.mem_append.mp hn
  · exact .inl ((h.stands n hn).stop_le ho (List.mem_append_left _ ht))
  · obtain ⟨u, hu, hstart⟩ := (k.stands n hn).start_mem
    have hle := (ho.suffix h.suffix).stop_le_start ht hu
    rw [← hstart] at hle
    exact .inr hle

/-- The tokens around those that divide. -/
theorem split (h : Divided xs ys sts is ts after) :
    ∃ before between, xs = before ++ (ts ++ after) ∧ after = between ++ ys := by
  obtain ⟨h, k⟩ := h
  obtain ⟨before, hbefore⟩ := h.suffix
  obtain ⟨between, hbetween⟩ := k.suffix
  exact ⟨before, between, hbefore.symm, hbetween.symm⟩

end Divided

namespace Derived
variable {b : Bool} {xs ys : List Token}

theorem branch_closed {is : List Item} (h : Derived b xs ys (.branch is .block)) :
    ∃ t, LoneEnd t ys ∧ Stretch xs (t :: ys) (Item.statementsAll is) is := by
  cases h with
  | elseBlock _ hd hend => exact ⟨_, hend, hd.stretch.widen (List.suffix_cons _ _) List.suffix_rfl⟩

/-- An `ELSE` with one statement begins with that statement. -/
theorem branch_inline {is : List Item} (h : Derived b xs ys (.branch is .inline)) :
    ∃ t u us st, xs = t :: u :: us ∧ Leads [.ELSE] t (u :: us) ∧ is = [.statement st] ∧
      st.span.start = u.span.start := by
  cases h with
  | elseInline hlead hd =>
    obtain ⟨u, us, rfl, hstart⟩ := hd.statement_starts
    exact ⟨_, u, us, _, rfl, hlead, rfl, hstart⟩

open List in
/-- Branches written as a block are closed by a lone `END`. -/
theorem clause_closed {c : Clause} (h : Derived b xs ys (.clause (some c)))
    (hl : c.layout = .block) : ∃ t after is, LoneEnd t after ∧
      Divided xs ys c.nested is [t] after ∧ (is = c.items ∨ c.EndElse after is) := by
  rw [Clause.nested_eq]
  cases h with
  | thenInline hlead hd hc =>
    obtain rfl := hl
    cases hc with
    | byEnd hend =>
      refine ⟨_, _, _, hend, .last ?_, .inl rfl⟩
      simpa using hd.stretch.widen (suffix_cons _ _) suffix_rfl
  | thenInlineElse hlead hd hb hc =>
    obtain rfl := hl
    cases hc with
    | asIs =>
      obtain ⟨t, hend, hb⟩ := hb.branch_closed
      refine ⟨t, _, _, hend, .last ?_, .inl rfl⟩
      simpa using (hd.stretch.append hb).widen (suffix_cons _ _) suffix_rfl
    | byEnd hend =>
      refine ⟨_, _, _, hend, .last ?_, .inl rfl⟩
      simpa using (hd.stretch.append hb.stretch).widen (suffix_cons _ _) suffix_rfl
  | elseOnly hb hc =>
    obtain rfl := hl
    cases hc with
    | asIs =>
      obtain ⟨t, hend, hb⟩ := hb.branch_closed
      refine ⟨t, _, _, hend, .last ?_, .inl rfl⟩
      simpa using hb
    | byEnd hend =>
      refine ⟨_, _, _, hend, .last ?_, .inl rfl⟩
      simpa using hb.stretch
  | thenBlock _ hd hend =>
    refine ⟨_, _, _, hend, .last ?_, .inl rfl⟩
    simpa using hd.stretch.widen (suffix_cons _ _) suffix_rfl
  | @thenBlockEndElse _ _ vs _ _ u is js layout _ hd hend hb =>
    cases layout with
    | inline =>
      obtain ⟨t, v, us, st, rfl, hlead, rfl, hstart⟩ := hb.branch_inline
      refine ⟨u, _, is, hend, ?_, .inr ⟨t, v, us, st, rfl, hlead, rfl, rfl, hstart⟩⟩
      rw [Clause.items, Item.statementsAll_append]
      exact .intro (hd.stretch.widen (suffix_cons _ _) suffix_rfl) hb.stretch
    | block =>
      obtain ⟨t, hend, hb⟩ := hb.branch_closed
      refine ⟨t, _, _, hend, .last ?_, .inl rfl⟩
      rw [Clause.items, Item.statementsAll_append]
      exact (hd.stretch.append (hb.widen (suffix_cons _ _) suffix_rfl)).widen (suffix_cons _ _)
        suffix_rfl
  | thenBlockElse _ hd _ he hend =>
    refine ⟨_, _, _, hend, .last ?_, .inl rfl⟩
    rw [Clause.items, Item.statementsAll_append]
    exact (hd.stretch.append (he.stretch.widen (suffix_cons _ _) suffix_rfl)).widen
      (suffix_cons _ _) suffix_rfl

/-- A form that is written as a block has a terminator. -/
theorem form_closed {f : Form} (h : Derived b xs ys (.form f)) (hb : f.isBlock = true) :
    ∃ ts after is, f.ClosedBy ts after ∧ f.Precede after is ∧ Divided xs ys f.nested is ts after ∧
      (f.clause? = none → after = ys) := by
  cases h with
  | endUnit => cases hb
  | @attached _ _ ws vs us _ _ a ha hw h₁ h₂ h₃ =>
    obtain ⟨c, hc, hl⟩ : ∃ c, a.clause = some c ∧ c.layout = .block := by
      rw [Form.isBlock_of_attachments ha] at hb
      simpa [Option.any_eq_true] using hb
    have hf : f.clause? = some c := by rw [Form.clause?_of_attachments ha, hc]
    rw [hc] at h₃
    obtain ⟨t, after, is, hend, hdivided, his⟩ := h₃.clause_closed hl
    refine ⟨[t], after, is, .loneEnd hf hl hend, ?_, ?_, fun hnone => ?_⟩
    · obtain rfl | his := his
      · have hitems : f.items = c.items := by
          rw [Form.items_of_attachments ha, hc]
          rfl
        exact hitems ▸ .all
      · exact .endElse hf his
    · rw [Form.nested_of_attachments ha, Attachments.nested, hc]
      exact (Divided.behind h₁.stretch (.behind h₂.stretch hdivided)).widen hw List.suffix_rfl
    · rw [hf] at hnone
      cases hnone
  | forNext hu hd ht hn =>
    cases hn with
    | absent =>
      exact ⟨_, _, _, .next ht, .all, .last (hd.stretch.widen hu List.suffix_rfl), fun _ => rfl⟩
    | named hname =>
      exact ⟨_, _, _, .nextNamed ht hname, .all, .last (hd.stretch.widen hu List.suffix_rfl),
        fun _ => rfl⟩
  | loop hu hd ht =>
    refine ⟨_, _, _, .repeat ht, .all, .last ?_, fun _ => rfl⟩
    simpa [Form.nested, Form.items] using hd.stretch.widen hu List.suffix_rfl
  | loopGuarded hu hd hw he ht =>
    refine ⟨_, _, _, .repeat ht, .all, .last ?_, fun _ => rfl⟩
    exact (hd.stretch.append (he.stretch.widen hw List.suffix_rfl)).widen hu List.suffix_rfl
  | beginCase hu hd ht hk _ =>
    exact ⟨_, _, _, .endCase ht hk, .all, .last (hd.stretch.widen hu List.suffix_rfl),
      fun _ => rfl⟩

end Derived

namespace Statement

/-- A block that stands among tokens in their order is terminated. -/
theorem Stands.terminated {xs ys : List Token} {st : Statement} (h : st.Stands xs ys)
    (ho : Ordered 0 xs) (hb : st.form.isBlock = true) : ∃ ts, st.Terminated xs ts := by
  obtain ⟨b, us, vs, hus, -, hd, hc⟩ := h
  have hu := ho.suffix hus
  obtain ⟨ts, after, is, hclosed, hprec, hdivided, hlast⟩ := hd.form_closed hb
  obtain ⟨before, between, rfl, rfl⟩ := hdivided.split
  obtain ⟨front, rfl⟩ := hus
  have hmem : ∀ t ∈ ts, t ∈ before ++ (ts ++ (between ++ vs)) := by
    intro t ht
    simp [ht]
  refine ⟨ts, ⟨front ++ before, between ++ vs, is, ?_, hclosed, hprec, hdivided.ends hu⟩, ?_, ?_,
    hdivided.outside hu⟩
  · simp
  · intro t ht
    refine ⟨hc.start_le hu (hmem t ht), ?_⟩
    rw [show before ++ (ts ++ (between ++ vs)) = before ++ (ts ++ between) ++ vs by simp] at hc hu
    exact hc.le_stop hu (by simp [ht])
  · intro hnone t ht
    rw [List.append_left_eq_self.mp (hlast hnone), List.nil_append, ← List.append_assoc] at hc
    exact hc.stop_eq (by rw [List.getLast?_append, Option.mem_def.mp ht]; rfl)

/-- Two statements that are nested or apart have no terminator in common. -/
theorem Terminated.disjoint {tokens ts us : List Token} {a b : Statement}
    (ha : a.Terminated tokens ts) (hb : b.Terminated tokens us) (hab : a.Before b)
    (ho : Ordered 0 tokens) : ts.Disjoint us := by
  intro t hta htb
  have hpos : t.span.start < t.span.stop := by
    obtain ⟨before, after, is, rfl, -⟩ := ha.closed
    exact (ho.bound t (by simp [hta])).2
  have hia := ha.inside t hta
  have hib := hb.inside t htb
  obtain hapart | hnested := hab
  · omega
  · have hout := ha.outside b hnested t hta
    omega

end Statement

/-- Where the grammar records nothing, every block of a program is closed by a terminator, and
no token terminates two statements. -/
theorem blocks_terminated {options : Options} {source : String}
    (h : recordedFaults source options.keepComments = []) :
    let tokens := (lex source).tokens
    let statements := (parseWith options source).program.allStatements
    (∀ st ∈ statements, st.form.isBlock = true → ∃ ts, st.Terminated tokens ts) ∧
      statements.Pairwise fun a b => ∀ ts us,
        a.Terminated tokens ts → b.Terminated tokens us → ts.Disjoint us := by
  intro tokens statements
  have ho : Ordered 0 tokens := lex_ordered source
  have hstretch : Stretch tokens [] statements _ := (parse_derived h).stretch
  refine ⟨fun st hst hb => (hstretch.stands st hst).terminated ho hb, ?_⟩
  exact (hstretch.order ho).imp fun hab ts us ha hb => ha.disjoint hb hab ho

/-- The `END` of a branch and the `NEXT` around it. -/
theorem blocks_terminated_next :
    recordedFaults "FOR I = 1 TO 2\nIF X THEN\nY = I\nEND\nNEXT I" true = [] ∧
    let tokens := (lex "FOR I = 1 TO 2\nIF X THEN\nY = I\nEND\nNEXT I").tokens
    let statements := (parse "FOR I = 1 TO 2\nIF X THEN\nY = I\nEND\nNEXT I").program.allStatements
    (∀ st ∈ statements, st.form.isBlock = true → ∃ ts, st.Terminated tokens ts) ∧
      statements.Pairwise fun a b => ∀ ts us,
        a.Terminated tokens ts → b.Terminated tokens us → ts.Disjoint us := by
  have h : recordedFaults "FOR I = 1 TO 2\nIF X THEN\nY = I\nEND\nNEXT I" true = [] := by
    decide +kernel
  exact ⟨h, @blocks_terminated {} _ h⟩

end PickSyntax
