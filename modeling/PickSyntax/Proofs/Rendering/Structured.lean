import PickSyntax.Proofs.Rendering.Block

/-!
# The round trip of structured programs

Whatever its plan, a structured program reads back from its text, a line at a time. The proof
is by induction on the plan. A body is read the same way in every statement list, so the
induction does not mention the blocks that are open; each kind of block only has to find its
own terminator behind a body that is known to be read.
-/
namespace PickSyntax

open PickSyntax.Parser PickSyntax.Grammar

/-- The words of the plan read as its tree. -/
def Plan.IsRead (p : Plan) : Prop :=
  ∀ ts, ts.map Token.laid = p.words → ItemsRead ts [.statement ⟨p.form, .point 0⟩]

def AllRead (ps : List Plan) : Prop :=
  ∀ ts, ts.map Token.laid = wordsOf ps → ItemsRead ts (itemsOf ps)

theorem Plan.head (p : Plan) :
    ∃ w ws, p.words = w :: ws ∧ w.lineStart = true ∧ opensItem w.kind = true := by
  cases p with
  | assign target value =>
    exact ⟨_, _, rfl, rfl, opensItem_of_isName target.isName⟩
  | null | ifThen | ifElse | forNext | loop | loopGuard | beginCase => exact ⟨_, _, rfl, rfl, rfl⟩

section Reading
variable {s : State} {ts rest : List Token} {t : Token}

theorem lineBreak_wordsOf {ps : List Plan} (hts : ts.map Token.laid = wordsOf ps)
    (hrest : LineBreak rest) : LineBreak (ts ++ rest) := by
  cases ps with
  | nil =>
    obtain rfl := List.map_eq_nil_iff.mp hts
    exact hrest
  | cons p ps =>
    obtain ⟨w, ws, hw, hline, hopens⟩ := p.head
    rw [wordsOf, hw, List.cons_append] at hts
    obtain ⟨t, us, rfl, rfl, -⟩ := List.map_eq_cons_iff.mp hts
    exact .cons hline (not_symbol_of_opensItem hopens)

theorem allRead_nil : AllRead [] := by
  intro ts hts
  obtain rfl := List.map_eq_nil_iff.mp hts
  exact ItemsRead.nil

theorem Plan.IsRead.cons {p : Plan} {ps : List Plan} (h : p.IsRead) (k : AllRead ps) :
    AllRead (p :: ps) := by
  intro ts hts
  obtain ⟨us, vs, rfl, hus, hvs⟩ := List.map_eq_append_iff.mp hts
  exact (h us hus).append (k vs hvs) fun _ => lineBreak_wordsOf hvs

theorem null_isRead : Plan.null.IsRead := by
  intro ts hts
  obtain ⟨t, rfl, ht⟩ := List.map_eq_singleton_iff.mp hts
  exact .led ht rfl rfl fun _ _ => .pure rfl

theorem assign_isRead (target : Name) (value : Phrase) : (Plan.assign target value).IsRead := by
  intro ts hts
  obtain ⟨t, us, rfl, ht, hus⟩ := List.map_eq_cons_iff.mp hts
  obtain ⟨q, vs, rfl, hq, hvs⟩ := List.map_eq_cons_iff.mp hus
  have hname : t.kind.isName = true := by
    rw [show t.kind = target.kind from congrArg Word.kind ht]
    exact target.isName
  have htext : t.text = target.text := congrArg Word.text ht
  refine .single (opensItem_of_isName hname) fun hs hb hrest => ?_
  rw [form_of_isName hname, Plan.form, ← htext]
  exact assignment_gives hs.rest hb hname (congrArg Word.kind hq) (congrArg Word.lineStart hq)
    (Phrase.map_word hvs) value.reads (hrest.ends _)

/-- The header of an `IF`, before branches that are read. -/
theorem ifThen_itemsRead {p : Phrase} {clause : Clause} {cs us : List Token} {u : Token}
    (ht : t.laid = (Word.ofKeyword .IF).leading) (hcs : cs.map Token.laid = p.words)
    (hu : u.laid = .ofKeyword .THEN) (hbreak : ∀ rest, LineBreak rest → LineBreak (us ++ rest))
    (h : ∀ {owner s rest}, s.Before (us ++ rest) → LineBreak rest →
      Gives (thenBlock statement owner) s us (·.plain = clause)) :
    ItemsRead (t :: (cs ++ u :: us)) [.statement ⟨.ifThen p.expr.plain clause, .point 0⟩] := by
  refine .led ht rfl rfl fun {s rest} hs hrest => ?_
  rw [List.append_assoc, List.cons_append] at hs
  exact gives_iff_records.mpr
    (ifThen_records hs hcs hu (hbreak rest hrest) fun _ hs' => (h hs' hrest).records)

theorem ifThen_isRead (condition : Phrase) {body : List Plan} (hb : AllRead body) :
    (Plan.ifThen condition body).IsRead := by
  intro ts hts
  simp only [Plan.words, line_cons, List.cons_append, List.append_assoc, List.nil_append] at hts
  obtain ⟨t, ts, rfl, ht, hts⟩ := List.map_eq_cons_iff.mp hts
  obtain ⟨cs, ts, rfl, hcs, hts⟩ := List.map_eq_append_iff.mp hts
  obtain ⟨u, ts, rfl, hu, hts⟩ := List.map_eq_cons_iff.mp hts
  obtain ⟨bs, ts, rfl, hbs, hts⟩ := List.map_eq_append_iff.mp hts
  obtain ⟨e, rfl, he⟩ := List.map_eq_singleton_iff.mp hts
  refine ifThen_itemsRead ht hcs hu (fun rest _ => ?_) fun hs hrest => ?_
  · rw [List.append_assoc]
    exact lineBreak_wordsOf hbs (.keyword he)
  · rw [List.append_assoc] at hs
    exact thenBlock_gives (hb bs hbs) hs he hrest

theorem ifElse_isRead (condition : Phrase) {body other : List Plan} (ended : Bool)
    (hb : AllRead body) (ho : AllRead other) :
    (Plan.ifElse condition body ended other).IsRead := by
  intro ts hts
  simp only [Plan.words, line_cons, List.cons_append, List.append_assoc, List.nil_append] at hts
  obtain ⟨t, ts, rfl, ht, hts⟩ := List.map_eq_cons_iff.mp hts
  obtain ⟨cs, ts, rfl, hcs, hts⟩ := List.map_eq_append_iff.mp hts
  obtain ⟨u, ts, rfl, hu, hts⟩ := List.map_eq_cons_iff.mp hts
  obtain ⟨bs, ts, rfl, hbs, hts⟩ := List.map_eq_append_iff.mp hts
  cases ended with
  | false =>
    simp only [Bool.false_eq_true, if_false, List.nil_append, line_cons, List.cons_append] at hts
    obtain ⟨x, ts, rfl, hx, hts⟩ := List.map_eq_cons_iff.mp hts
    obtain ⟨os, ts, rfl, hos, hts⟩ := List.map_eq_append_iff.mp hts
    obtain ⟨e, rfl, he⟩ := List.map_eq_singleton_iff.mp hts
    refine ifThen_itemsRead ht hcs hu (fun rest _ => ?_) fun hs hrest => ?_
    · rw [List.append_assoc]
      exact lineBreak_wordsOf hbs (.keyword hx)
    · rw [List.append_assoc, List.cons_append, List.append_assoc] at hs
      exact thenBlock_gives_else (hb bs hbs) (ho os hos) hs hx he hrest
  | true =>
    simp only [if_true, line_cons, List.cons_append, List.nil_append] at hts
    obtain ⟨x, ts, rfl, hx, hts⟩ := List.map_eq_cons_iff.mp hts
    obtain ⟨y, ts, rfl, hy, hts⟩ := List.map_eq_cons_iff.mp hts
    obtain ⟨os, ts, rfl, hos, hts⟩ := List.map_eq_append_iff.mp hts
    obtain ⟨e, rfl, he⟩ := List.map_eq_singleton_iff.mp hts
    refine ifThen_itemsRead ht hcs hu (fun rest _ => ?_) fun hs hrest => ?_
    · rw [List.append_assoc]
      exact lineBreak_wordsOf hbs (.keyword hx)
    · rw [List.append_assoc, List.cons_append, List.cons_append, List.append_assoc] at hs
      exact thenBlock_gives_end_else (hb bs hbs) (ho os hos) hs hx hy he hrest
        (lineBreak_wordsOf hos (.keyword he))

theorem forNext_isRead (counter : Name) (start limit : Phrase) (step : Option Phrase)
    (guard : Option Guard) {body : List Plan} (next : Option Name) (hb : AllRead body) :
    (Plan.forNext counter start limit step guard body next).IsRead := by
  intro ts hts
  simp only [Plan.words, line_cons, List.cons_append] at hts
  obtain ⟨t, ts, rfl, ht, hts⟩ := List.map_eq_cons_iff.mp hts
  rw [← List.cons_append, ← List.cons_append] at hts
  obtain ⟨us, ts, rfl, hus, hts⟩ := List.map_eq_append_iff.mp hts
  obtain ⟨bs, ts, rfl, hbs, hts⟩ := List.map_eq_append_iff.mp hts
  obtain ⟨x, ns, rfl, hx, hns⟩ := List.map_eq_cons_iff.mp hts
  refine .led ht rfl rfl fun {s rest} hs hrest => ?_
  simp only [List.append_assoc, List.cons_append] at hs
  have hbreak : LineBreak (bs ++ x :: (ns ++ rest)) := lineBreak_wordsOf hbs (.keyword hx)
  refine gives_iff_records.mpr (forNext_records hus hs hbreak
    fun {v w i g s₁} h₁ hv hw hi hg => Gives.records ?_)
  have hs₁ := hs.after h₁
  refine (body_gives (hb bs hbs) hs₁ (.of_closers hx (by simp [closers]))).bind
    fun r s₂ h₂ hr => ?_
  obtain ⟨items, rfl, hitems⟩ := hr
  refine (nextName_gives (hs₁.after h₂) hns hrest).map fun name hnext => ?_
  rw [Form.plain_forNext, hv, hw, hi, hg, hitems, hnext]
  rfl

theorem loop_isRead {body : List Plan} (hb : AllRead body) : (Plan.loop body).IsRead := by
  intro ts hts
  simp only [Plan.words, line_cons, List.cons_append, List.nil_append] at hts
  obtain ⟨t, ts, rfl, ht, hts⟩ := List.map_eq_cons_iff.mp hts
  obtain ⟨bs, ts, rfl, hbs, hts⟩ := List.map_eq_append_iff.mp hts
  obtain ⟨x, rfl, hx⟩ := List.map_eq_singleton_iff.mp hts
  refine .led ht rfl rfl fun {s rest} hs _ => ?_
  rw [List.append_assoc] at hs
  refine (body_gives (hb bs hbs) hs (.of_closers hx (by simp [closers]))).bind
    fun r s₁ h₁ hr => ?_
  obtain ⟨items, rfl, hitems⟩ := hr
  have hs₁ := hs.after h₁
  have hguard : guardSense? s₁ = none := by
    have hrepeat : x.kind = .keyword .REPEAT := congrArg Word.kind hx
    simp [guardSense?, State.kind?, hs₁.rest, hrepeat]
  refine .look ?_
  simp only [hguard]
  refine (Gives.skipOne hs₁.rest).map fun _ _ => ?_
  rw [Form.plain_loop, hitems]
  rfl

theorem loopGuard_isRead {before after : List Plan} (guard : Guard) (hb : AllRead before)
    (ha : AllRead after) : (Plan.loopGuard before guard after).IsRead := by
  intro ts hts
  simp only [Plan.words, Guard.words, line_cons, List.cons_append, List.append_assoc,
    List.nil_append] at hts
  obtain ⟨t, ts, rfl, ht, hts⟩ := List.map_eq_cons_iff.mp hts
  obtain ⟨bs, ts, rfl, hbs, hts⟩ := List.map_eq_append_iff.mp hts
  obtain ⟨g, ts, rfl, hg, hts⟩ := List.map_eq_cons_iff.mp hts
  obtain ⟨cs, ts, rfl, hcs, hts⟩ := List.map_eq_append_iff.mp hts
  obtain ⟨d, ts, rfl, hd, hts⟩ := List.map_eq_cons_iff.mp hts
  obtain ⟨as, ts, rfl, has, hts⟩ := List.map_eq_append_iff.mp hts
  obtain ⟨x, rfl, hx⟩ := List.map_eq_singleton_iff.mp hts
  refine .led ht rfl rfl fun {s rest} hs _ => ?_
  simp only [List.append_assoc, List.cons_append, List.nil_append] at hs
  have hclosing : Closing .loopBefore (g :: (cs ++ d :: (as ++ x :: rest))) :=
    .of_closers hg (by cases guard.sense <;> simp [closers, GuardSense.keyword])
  refine (body_gives (hb bs hbs) hs hclosing).bind fun r s₁ h₁ hr => ?_
  obtain ⟨items, rfl, hitems⟩ := hr
  have hs₁ := hs.after h₁
  refine .look ?_
  simp only [guardSense?_keyword hs₁.rest (congrArg Word.kind hg)]
  refine (loopRest_gives hcs hs₁ hd (ha as has) hx).map fun r hr => ?_
  rw [Form.plain_loop, hitems, hr.1, hr.2]
  rfl

/-- The words of the clauses read as their trees. -/
def ArmsAreRead (as : List PlanArm) : Prop :=
  ∀ ts, ts.map Token.laid = wordsOfArms as → ArmsRead ts (casesOf as)

/-- The body before the clauses ends at the first of them, or at `END CASE`. -/
theorem closing_wordsOfArms {as : List PlanArm} {u v : Token}
    (hts : ts.map Token.laid = wordsOfArms as) (hu : u.laid = (Word.ofKeyword .END).leading)
    (hv : v.laid = .ofKeyword .CASE) : Closing .caseBody (ts ++ u :: v :: rest) := by
  cases as with
  | nil =>
    obtain rfl := List.map_eq_nil_iff.mp hts
    exact .end_case hu hv
  | cons a as =>
    obtain ⟨condition, body⟩ := a
    rw [wordsOfArms, PlanArm.words, line_cons, List.cons_append, List.cons_append] at hts
    obtain ⟨t, us, rfl, ht, -⟩ := List.map_eq_cons_iff.mp hts
    exact .of_closers ht (by simp [closers])

theorem armsAreRead_nil : ArmsAreRead [] := by
  intro ts hts
  obtain rfl := List.map_eq_nil_iff.mp hts
  exact ArmsRead.nil

theorem ArmsAreRead.cons {condition : Phrase} {body : List Plan} {as : List PlanArm}
    (hb : AllRead body) (h : ArmsAreRead as) : ArmsAreRead (⟨condition, body⟩ :: as) := by
  intro ts hts
  simp only [wordsOfArms, PlanArm.words, line_cons, List.cons_append, List.append_assoc] at hts
  obtain ⟨t, ts, rfl, ht, hts⟩ := List.map_eq_cons_iff.mp hts
  obtain ⟨cs, ts, rfl, hcs, hts⟩ := List.map_eq_append_iff.mp hts
  obtain ⟨bs, vs, rfl, hbs, hvs⟩ := List.map_eq_append_iff.mp hts
  rw [← List.append_assoc, ← List.cons_append]
  exact .cons ht hcs (hb bs hbs) (fun _ => lineBreak_wordsOf hbs)
    (fun hu hv => closing_wordsOfArms hvs hu hv) (h vs hvs)

theorem beginCase_isRead {arms : List PlanArm} (h : ArmsAreRead arms) :
    (Plan.beginCase arms).IsRead := by
  intro ts hts
  simp only [Plan.words, line_cons, List.cons_append, List.nil_append] at hts
  obtain ⟨t, ts, rfl, ht, hts⟩ := List.map_eq_cons_iff.mp hts
  obtain ⟨c, ts, rfl, hc, hts⟩ := List.map_eq_cons_iff.mp hts
  obtain ⟨as, ts, rfl, has, hts⟩ := List.map_eq_append_iff.mp hts
  obtain ⟨u, ts, rfl, hu, hts⟩ := List.map_eq_cons_iff.mp hts
  obtain ⟨v, rfl, hv⟩ := List.map_eq_singleton_iff.mp hts
  refine .led ht rfl rfl fun {s rest} hs _ => ?_
  simp only [List.append_assoc, List.cons_append, List.nil_append] at hs
  refine (Gives.require hs.rest (congrArg Word.kind hc) (congrArg Word.lineStart hc)).bind
    fun _ s₁ h₁ _ => ?_
  refine ((h as has).gives (hs.past h₁) hu hv []).map fun r hr => ?_
  rw [Form.plain_beginCase, hr]
  rfl

end Reading

mutual

theorem Plan.isRead : ∀ p : Plan, p.IsRead
  | .null => null_isRead
  | .assign target value => assign_isRead target value
  | .ifThen condition body => ifThen_isRead condition (allRead body)
  | .ifElse condition body ended other =>
    ifElse_isRead condition ended (allRead body) (allRead other)
  | .forNext counter start limit step guard body next =>
    forNext_isRead counter start limit step guard next (allRead body)
  | .loop body => loop_isRead (allRead body)
  | .loopGuard before guard after => loopGuard_isRead guard (allRead before) (allRead after)
  | .beginCase arms => beginCase_isRead (armsAreRead arms)

theorem allRead : ∀ ps : List Plan, AllRead ps
  | [] => allRead_nil
  | p :: ps => p.isRead.cons (allRead ps)

theorem armsAreRead : ∀ as : List PlanArm, ArmsAreRead as
  | [] => armsAreRead_nil
  | ⟨_, body⟩ :: as => .cons (allRead body) (armsAreRead as)

end

/-- A structured program reads back from its text without diagnostics. -/
theorem structured_round_trip (ps : List Plan) : (parse (sourceOf ps)).diagnostics = [] ∧
    (parse (sourceOf ps)).program.items.map Item.plain = itemsOf ps := by
  have hline : ∀ w ∈ (wordsOf ps).head?, w.lineStart = true := by
    cases ps with
    | nil => simp [wordsOf]
    | cons p ps =>
      obtain ⟨w, ws, hw, hl, -⟩ := p.head
      rw [wordsOf, hw]
      rintro _ ⟨⟩
      exact hl
  have hportable := portable_wordsOf ps
  rw [sourceOf, ← write_atStart]
  refine parse_write (hportable.fluent hline) fun ts hts => ?_
  have hlaid := map_laid_atStart hportable hline hts
  exact (allRead ps ts hlaid).gives (programStep_takes _) ⟨(List.append_nil ts).symm, rfl⟩ .nil

def counterName : Name := ⟨.identifier, "I", rfl, .identifier (by decide) (by simp) (by decide)⟩

def one : Phrase := .number "1" (.digits (by decide) (by simp))

example : sourceOf [.forNext counterName one one none none
      [.ifElse one [.assign counterName one] true [.beginCase [⟨one, []⟩]]] (some counterName)] =
    "FOR I = 1 TO 1\nIF 1 THEN\nI = 1\nEND ELSE\nBEGIN CASE\nCASE 1\nEND CASE\nEND\nNEXT I" := by
  decide

end PickSyntax
