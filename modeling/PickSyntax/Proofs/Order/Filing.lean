import PickSyntax.Proofs.Order.Statement
import PickSyntax.Proofs.Structure.LoneEnd

/-!
# Items are listed in the order of the source

A list of items is *filed* where it is in order and everything that is left of the source stands
behind it. A comment and a label keep it so, since a comment is listed when the next token is
behind it, and no item is begun before that. A statement keeps it so but for one case. Comments
inside its range that it did not take are listed after it, and that happens only where it went on
with a token that is taken on whatever line it stands.
-/
namespace PickSyntax

open PickSyntax.Parser PickSyntax.Grammar

/-- The bodies of a clause. -/
def Clause.bodies (c : Clause) : List (List Item) := c.thenBody.toList ++ c.elseBody.toList

/-- The bodies of a form, each a list of items side by side. -/
def Form.bodies : Form → List (List Item)
  | .beginCase cases => cases.map CaseArm.body
  | .forNext _ _ _ _ _ body _ => [body]
  | .loop before _ after => [before, after]
  | f => (f.clause?.map Clause.bodies).getD []

/-- All lists of items of a program: its own, and the bodies of its statements at any depth. -/
def Program.lists (p : Program) : List (List Item) :=
  p.items :: p.allStatements.flatMap fun st => st.form.bodies

theorem Form.bodies_of_attachments {f : Form} {a : Attachments} (h : f.attachments? = some a) :
    f.bodies = (a.clause.map Clause.bodies).getD [] := by
  rw [← clause?_of_attachments h]
  cases f <;> first | rfl | cases h

/-- The `END` closes the clause, of which every branch is one statement on the line of its keyword:
it stands directly behind the last of these. -/
structure Clause.ClosedInline (tokens : List Token) (c : Clause) (t : Token) : Prop where
  kind : t.kind = .keyword .END
  layout : c.layout = .block
  inline : ∀ q ∈ c.branches, q.Inline tokens
  behind : ∃ st last, c.items.getLast? = some (.statement st) ∧ last.span.stop = st.span.stop ∧
    [last, t] <:+: tokens

/-- The token is the `END` of one of the clauses, each branch of which is on one line. -/
def Token.ClosesOne (tokens : List Token) (cs : List Clause) (t : Token) : Prop :=
  ∃ c ∈ cs, c.ClosedInline tokens t

/-- The clauses that the statements have themselves. -/
def clausesOf (sts : List Statement) : List Clause := sts.filterMap fun st => st.form.clause?

/-- The statement goes on beyond the comment. The first token behind the comment begins a line, the
statement ends with it or later, and it is one that is taken on whatever line it stands: the `END`
of a clause in the statement that was written on one line, a sign, or the parenthesis that closes an
empty list. -/
def Statement.Overruns (tokens : List Token) (st : Statement) (c : Comment) : Prop :=
  ∃ t ∈ tokens, t.lineStart = true ∧
    (t.ClosesOne tokens (clausesOf st.all) ∨ t.CrossesLines tokens) ∧
    c.span.stop ≤ t.span.start ∧ t.span.stop ≤ st.span.stop ∧
    ∀ u ∈ tokens, u.span.stop ≤ c.span.start ∨ t.span.start ≤ u.span.start

/-- The first item begins before the second, and ends before it unless it is a statement that
overruns a comment. -/
def Item.Precedes (tokens : List Token) (a b : Item) : Prop :=
  a.span.start < b.span.start ∧ (a.span.stop ≤ b.span.start ∨
    ∃ st c, a = .statement st ∧ b = .comment c ∧ st.Overruns tokens c)

theorem Item.Precedes.of_stop_le {tokens : List Token} {a b : Item}
    (hlt : a.span.start < b.span.start) (hle : a.span.stop ≤ b.span.start) :
    a.Precedes tokens b :=
  ⟨hlt, .inl hle⟩

namespace Part

/-- The lists of items that a part has itself. -/
@[simp] def lists : Part → List (List Item)
  | .items is | .branch is _ => [is]
  | .statement _ | .single _ => []
  | .form f => f.bodies
  | .clause c => (c.map Clause.bodies).getD []
  | .cases cs => cs.map CaseArm.body

/-- The clause that a part has itself. -/
@[simp] def clause? : Part → Option Clause
  | .clause c => c
  | .form f => f.clause?
  | _ => none

/-- The clauses of a part, its own and those of its statements at any depth. -/
def clauses (p : Part) : List Clause := p.clause?.toList ++ clausesOf p.statements

section Clauses
variable {st : Statement} {f : Form} {is : List Item} {c : Clause}

theorem clauses_statement {span : Span} :
    (Part.statement ⟨f, span⟩).clauses = (Part.form f).clauses := by
  have hall : Statement.all ⟨f, span⟩ = ⟨f, span⟩ :: f.nested := by rw [Statement.all]
  simp only [clauses, clause?, statements, hall, clausesOf, List.filterMap_cons]
  cases f.clause? <;> rfl

theorem clauses_one : (Part.statement st).clauses ⊆ (Part.items [.statement st]).clauses := by
  simp [clauses]

/-- The clauses of what is attached to a form are those of the form. -/
theorem clauses_attached {onError locked : Option Statement} {clause : Option Clause}
    {before : List Clause} (ha : f.attachments? = some ⟨onError, locked, clause⟩)
    (hb : before ⊆ (Part.single onError).clauses ++ (Part.single locked).clauses) :
    before ++ (Part.clause clause).clauses ⊆ (Part.form f).clauses := by
  intro c hc
  obtain hc | hc := List.mem_append.mp hc
  · have hc := hb hc
    simp only [clauses, clause?, statements, Form.clause?_of_attachments ha,
      Form.nested_of_attachments ha, Attachments.nested, clausesOf, List.filterMap_append,
      Option.toList_none, List.nil_append, List.mem_append] at hc ⊢
    tauto
  · simp only [clauses, clause?, statements, Form.clause?_of_attachments ha,
      Form.nested_of_attachments ha, Attachments.nested, clausesOf, List.filterMap_append,
      List.mem_append] at hc ⊢
    tauto

theorem clauses_append {js : List Item} :
    (Part.items (is ++ js)).clauses = (Part.items is).clauses ++ (Part.items js).clauses := by
  simp [clauses, clausesOf, Item.statementsAll_append]

theorem clauses_inline {layout : ClauseLayout} :
    (Part.statement st).clauses ++ (Part.branch is layout).clauses ⊆
      (Part.items ([.statement st] ++ is)).clauses := by
  rw [clauses_append]
  intro c hc
  obtain hc | hc := List.mem_append.mp hc
  · exact List.mem_append_left _ (clauses_one hc)
  · exact List.mem_append_right _ hc

/-- The clauses of the branches are those of the clause. -/
theorem clauses_items : (Part.items c.items).clauses ⊆ (Part.clause (some c)).clauses := by
  intro d hd
  simp only [clauses, clause?, statements, Clause.nested?_some, List.mem_append] at hd ⊢
  exact .inr (hd.resolve_left List.not_mem_nil)

theorem clauses_else {thenBody : Option (List Item)} {layout : ClauseLayout} :
    (Part.items is).clauses ⊆ (Part.clause (some ⟨thenBody, some is, layout⟩)).clauses := by
  refine List.Subset.trans ?_ clauses_items
  rw [Clause.items_mk, clauses_append]
  exact List.subset_append_right _ _

theorem clauses_loop {guard : Option LoopGuard} {before : List Item} :
    (Part.items is).clauses ⊆ (Part.form (.loop before guard is)).clauses := by
  intro c hc
  simp only [clauses, clause?, statements, Form.nested, clausesOf, List.filterMap_append,
    List.mem_append] at hc ⊢
  exact .inr (.inr (hc.resolve_left List.not_mem_nil))

end Clauses

/-- The lists of a part are in order, and so are those of its statements at any depth. -/
structure InOrder (tokens : List Token) (p : Part) : Prop where
  own : ∀ is ∈ p.lists, is.Pairwise (Item.Precedes tokens)
  nested : ∀ st ∈ p.statements, ∀ is ∈ st.form.bodies, is.Pairwise (Item.Precedes tokens)

namespace InOrder
variable {tokens : List Token} {is js : List Item} {st : Statement} {f : Form} {a : Attachments}

theorem noSingle : InOrder tokens (.single none) := ⟨nofun, nofun⟩

theorem noClause : InOrder tokens (.clause none) := ⟨nofun, nofun⟩

theorem noCase : InOrder tokens (.cases []) := ⟨nofun, nofun⟩

theorem nil : InOrder tokens (.items []) := ⟨by simp, nofun⟩

theorem one (h : InOrder tokens (.statement st)) : InOrder tokens (.items [.statement st]) where
  own := by simp
  nested := by simpa using h.nested

theorem branch {layout : ClauseLayout} (h : InOrder tokens (.items is)) :
    InOrder tokens (.branch is layout) :=
  ⟨h.own, h.nested⟩

theorem single (h : InOrder tokens (.statement st)) : InOrder tokens (.single (some st)) :=
  ⟨nofun, h.nested⟩

/-- The branches of a clause are in order. -/
theorem clause {thenBody elseBody : Option (List Item)} {layout : ClauseLayout}
    (ht : ∀ is ∈ thenBody, InOrder tokens (.items is))
    (he : ∀ is ∈ elseBody, InOrder tokens (.items is)) :
    InOrder tokens (.clause (some ⟨thenBody, elseBody, layout⟩)) := by
  constructor
  · simp only [lists, Clause.bodies, Option.map_some, Option.getD_some, List.mem_append,
      Option.mem_toList]
    rintro is (h | h)
    · exact (ht is h).own is (List.mem_singleton_self is)
    · exact (he is h).own is (List.mem_singleton_self is)
  · simp only [statements, Clause.nested?_some, Clause.items_mk, Item.statementsAll_append,
      List.mem_append]
    rintro st (h | h)
    · cases thenBody with
      | none => cases h
      | some is => exact (ht is rfl).nested st h
    · cases elseBody with
      | none => cases h
      | some is => exact (he is rfl).nested st h

/-- Parts attached to a form. -/
theorem attached (ha : f.attachments? = some a) (he : InOrder tokens (.single a.onError))
    (hl : InOrder tokens (.single a.locked)) (hc : InOrder tokens (.clause a.clause)) :
    InOrder tokens (.form f) := by
  constructor
  · simpa [Form.bodies_of_attachments ha] using hc.own
  · simp only [statements, Form.nested_of_attachments ha, Attachments.nested, List.mem_append]
    rintro st (h | h | h)
    · exact he.nested st h
    · exact hl.nested st h
    · exact hc.nested st h

theorem statement {span : Span} (h : InOrder tokens (.form f)) :
    InOrder tokens (.statement ⟨f, span⟩) := by
  refine ⟨nofun, ?_⟩
  simp only [statements, Statement.all, List.mem_cons]
  rintro st (rfl | h')
  · exact h.own
  · exact h.nested st h'

theorem forNext {counter : String} {start limit : Expr} {step : Option Expr}
    {guard : Option LoopGuard} {next : Option String} (h : InOrder tokens (.items is)) :
    InOrder tokens (.form (.forNext counter start limit step guard is next)) :=
  ⟨h.own, h.nested⟩

theorem loop {guard : Option LoopGuard} (hi : InOrder tokens (.items is))
    (hj : InOrder tokens (.items js)) : InOrder tokens (.form (.loop is guard js)) := by
  constructor
  · simpa [Form.bodies] using ⟨by simpa using hi.own, by simpa using hj.own⟩
  · simp only [statements, Form.nested, List.mem_append]
    rintro st (h | h)
    · exact hi.nested st h
    · exact hj.nested st h

theorem beginCase {cases : List CaseArm} (h : InOrder tokens (.cases cases)) :
    InOrder tokens (.form (.beginCase cases)) :=
  ⟨h.own, h.nested⟩

theorem case {cases : List CaseArm} {arm : CaseArm} (h : InOrder tokens (.cases cases))
    (hi : InOrder tokens (.items arm.body)) : InOrder tokens (.cases (cases ++ [arm])) := by
  constructor
  · simp only [lists, List.map_append, List.mem_append]
    rintro is (h' | h')
    · exact h.own is h'
    · exact hi.own is h'
  · simp only [statements, CaseArm.nestedAll_concat, List.mem_append]
    rintro st (h' | h')
    · exact h.nested st h'
    · exact hi.nested st h'

end InOrder
end Part

/-- The branch is one statement on the line of its keyword, and what is left stands directly behind
it. -/
structure Branch.Ends (tokens : List Token) (q : Branch) (s : State) : Prop where
  inline : q.Inline tokens
  behind : ∃ st last, q.items = [.statement st] ∧ last.span.stop = st.span.stop ∧
    (last :: s.rest) <:+ tokens

/-- The items are in order, and all tokens and comments that are left stand behind them. -/
structure Filed (tokens : List Token) (is : List Item) (s : State) : Prop where
  inOrder : (Part.items is).InOrder tokens
  ahead : ∀ i ∈ is, ∀ t ∈ s.rest, i.span.start < t.span.start ∧ i.span.stop ≤ t.span.start
  comments : ∀ i ∈ is, ∀ c ∈ s.comments, i.Precedes tokens (.comment c)

/-- The state is within the source, with fewer than `n` tokens left. -/
structure Amid (tokens : List Token) (comments : List Comment) (n : Nat) (s : State) : Prop where
  few : s.rest.length < n
  rest : s.rest <:+ tokens
  comments : s.comments <:+ comments

section Filing
variable {tokens : List Token} {comments : List Comment} {n : Nat} {is : List Item} {s s' : State}

theorem Amid.reaches (h : Amid tokens comments n s) (hr : s.Reaches s') :
    Amid tokens comments n s' :=
  ⟨Nat.lt_of_le_of_lt hr.rest.length_le h.few, hr.rest.trans h.rest, hr.comments.trans h.comments⟩

namespace Filed

theorem nil : Filed tokens [] s := ⟨.nil, nofun, nofun⟩

theorem reaches (h : Filed tokens is s) (hr : s.Reaches s') : Filed tokens is s' :=
  ⟨h.inOrder, fun i hi t ht => h.ahead i hi t (hr.rest.subset ht),
    fun i hi c hc => h.comments i hi c (hr.comments.subset hc)⟩

theorem past {t : Token} {us : List Token} (h : Filed tokens is s) (hr : s.rest = t :: us) :
    Filed tokens is (s.past t us) :=
  h.reaches ⟨Nat.le_refl _, hr ▸ List.suffix_cons t us, List.suffix_rfl, rfl, rfl⟩

/-- One more item, that stands behind the others and in front of what is left. -/
theorem concat {i : Item} (h : Filed tokens is s) (hr : s.Reaches s')
    (hbefore : ∀ j ∈ is, j.Precedes tokens i) (hi : (Part.items [i]).InOrder tokens)
    (hahead : ∀ t ∈ s'.rest, i.span.start < t.span.start ∧ i.span.stop ≤ t.span.start)
    (hcomments : ∀ c ∈ s'.comments, i.Precedes tokens (.comment c)) :
    Filed tokens (is ++ [i]) s' := by
  have h' := h.reaches hr
  refine ⟨⟨?_, ?_⟩, ?_, ?_⟩
  · simpa [List.pairwise_append] using ⟨by simpa using h.inOrder.own, hbefore⟩
  · simp only [Part.statements, Item.statementsAll_append, List.mem_append]
    rintro st (hst | hst)
    · exact h.inOrder.nested st hst
    · exact hi.nested st hst
  · simp only [List.forall_mem_append, List.forall_mem_singleton]
    exact ⟨h'.ahead, hahead⟩
  · simp only [List.forall_mem_append, List.forall_mem_singleton]
    exact ⟨h'.comments, hcomments⟩

end Filed

variable (hstreams : Streams tokens comments)
include hstreams

theorem Streams.sound (ha : Amid tokens comments n s) : s.Sound :=
  ⟨fun t ht => hstreams.spelled t (ha.rest.subset ht), hstreams.ordered.suffix ha.rest⟩

theorem Streams.sorted_left (ha : Amid tokens comments n s) : s.Sorted := by
  refine (hstreams.sorted.sublist ha.comments.sublist).imp_of_mem fun hc _ hle => ?_
  have := hstreams.nonempty _ (ha.comments.subset hc)
  omega

/-- Where the comments in front of the next token have been taken, a statement may begin. -/
theorem Streams.poised (ha : Amid tokens comments n s) (hp : s.Placed) : s.Poised where
  sorted := hstreams.sorted_left ha
  spaced t ht := hstreams.spaced t (tail_subset_of_suffix ha.rest ht)
  first _ := hp.clear

/-- A comment that is pending ends in front of all tokens that are left. -/
theorem Streams.pending (ha : Amid tokens comments n s) :
    ∀ c ∈ s.comments.takeWhile s.isPending, ∀ t ∈ s.rest,
      c.span.start < t.span.start ∧ c.span.stop ≤ t.span.start := by
  intro c hc t ht
  have hmem := ha.comments.subset ((List.takeWhile_prefix _).subset hc)
  have hpending := List.mem_takeWhile_imp hc
  have hpos := hstreams.ordered.bound t (ha.rest.subset ht)
  have hapart := hstreams.apart c hmem t (ha.rest.subset ht)
  have hlt : c.span.start < t.span.start := by
    cases hr : s.rest with
    | nil => simp [hr] at ht
    | cons u us =>
      have hle := (hstreams.sound ha).ordered.head_start_le (u := u) (by rw [hr]; rfl) ht
      have hu : c.span.start < u.span.start := by simpa [State.isPending, hr] using hpending
      omega
  omega

/-- Where the comments in front of the next token have been taken, those left are behind it. -/
theorem Streams.behind {t : Token} {us : List Token} (ha : Amid tokens comments n s)
    (hp : s.Placed) (hr : s.rest = t :: us) :
    ∀ c ∈ s.comments, t.span.start < c.span.start ∧ t.span.stop ≤ c.span.start := by
  intro c hc
  have ht : t ∈ tokens := ha.rest.subset (by rw [hr]; exact List.mem_cons_self ..)
  have hle := hp.le (t := t) (by rw [hr]; rfl) c hc
  have hpos := hstreams.ordered.bound t ht
  have hnonempty := hstreams.nonempty c (ha.comments.subset hc)
  have hapart := hstreams.apart c (ha.comments.subset hc) t ht
  omega

/-- Where tokens that end in front of a comment are followed by another one, all other tokens of the
source stand in front of the comment or behind that token. -/
theorem Streams.parted {us vs : List Token} {t : Token} {c : Comment}
    (ha : Amid tokens comments n s) (hp : s.Placed) (hc : c ∈ s.comments)
    (hs : s.rest = us ++ t :: vs) (hus : ∀ u ∈ us, u.span.stop ≤ c.span.start) :
    ∀ u ∈ tokens, u.span.stop ≤ c.span.start ∨ t.span.start ≤ u.span.start := by
  obtain ⟨earlier, hearlier⟩ := ha.rest
  have hordered : Ordered 0 (earlier ++ s.rest) := hearlier ▸ hstreams.ordered
  obtain ⟨first, hfirst⟩ : ∃ u, s.rest.head? = some u := by
    rw [hs]
    cases us <;> exact ⟨_, rfl⟩
  intro u hu
  rw [← hearlier, List.mem_append] at hu
  obtain hu | hu := hu
  · have hstop := hordered.stop_le_start hu (List.mem_of_mem_head? hfirst)
    exact .inl (Nat.le_trans hstop (hp.le hfirst c hc))
  · rw [hs, List.mem_append] at hu
    obtain hu | hu := hu
    · exact .inl (hus u hu)
    · have htail : t :: vs <:+ s.rest := ⟨us, hs.symm⟩
      exact .inr (((hstreams.sound ha).ordered.suffix htail).head_start_le rfl hu)

/-- A statement ends in front of the comments that are left, or it overruns them. -/
theorem Streams.overruns {st : Statement} {c : Comment} (ha : Amid tokens comments n s)
    (hp : s.Placed) (hst : Covers s.rest s'.rest st.span)
    (hheeds : s.Heeds (Token.ClosesOne tokens (clausesOf st.all)) s') (hc : c ∈ s'.comments) :
    st.span.stop ≤ c.span.start ∨ st.Overruns tokens c := by
  obtain ⟨us, hus, hpass⟩ := hheeds.passes
  obtain ⟨first, ts, last, hts, -, hlast, hspan⟩ := hst
  obtain rfl : us = ts := List.append_cancel_right (hus.symm.trans hts)
  have hmem : c ∈ s.comments := hheeds.comments.subset hc
  rw [hspan]
  cases hfind : us.find? fun t => c.span.start < t.span.stop with
  | none =>
    left
    simpa using List.find?_eq_none.mp hfind last (List.mem_of_getLast? hlast)
  | some t =>
    right
    obtain ⟨hlt, before, after, hbetween, hbefore⟩ := List.find?_eq_some_iff_append.mp hfind
    have ht : t ∈ us := List.mem_of_find?_eq_some hfind
    have htoken : t ∈ tokens := ha.rest.subset (hus ▸ List.mem_append_left _ ht)
    have hle : c.span.stop ≤ t.span.start := by
      have hlt : c.span.start < t.span.stop := by simpa using hlt
      have hapart := hstreams.apart c (ha.comments.subset hmem) t htoken
      omega
    have hs : s.rest = before ++ t :: (after ++ s'.rest) := by
      rw [hus, hbetween, List.append_assoc, List.cons_append]
    have hparted := hstreams.parted ha hp hmem hs (by simpa using hbefore)
    have hline := hstreams.broken c (ha.comments.subset hmem) t htoken hle hparted
    refine ⟨t, htoken, hline, ?_, hle, ?_, hparted⟩
    · obtain hcloses | hpasses := hpass t ht
      · exact .inl hcloses
      · have hpasses := hpasses.widen ha.rest.isInfix (List.Subset.refl _)
        refine .inr ((hpasses hline).resolve_right fun hplaced => ?_)
        have := hplaced c hc
        have := hstreams.nonempty c (ha.comments.subset hmem)
        omega
    · have hordered : Ordered 0 us := (hus ▸ (hstreams.sound ha).ordered).append_left
      rw [hspan]
      exact hordered.stop_le_getLast hlast ht

namespace Filed

/-- Comments are listed in front of all that is left. -/
theorem taken {cs ds : List Comment} (h : Filed tokens is s) (ha : Amid tokens comments n s)
    (hs : s.comments = cs ++ ds)
    (hcs : ∀ c ∈ cs, ∀ t ∈ s.rest, c.span.start < t.span.start ∧ c.span.stop ≤ t.span.start) :
    Filed tokens (is ++ cs.map Item.comment) { s with comments := ds } := by
  induction cs generalizing is s with
  | nil =>
    obtain rfl : ds = s.comments := hs.symm
    simpa using h
  | cons c cs ih =>
    have hone : s.Reaches { s with comments := cs ++ ds } :=
      ⟨Nat.le_refl _, List.suffix_rfl, hs ▸ List.suffix_cons c _, rfl, rfl⟩
    have hsorted := hstreams.sorted.sublist ha.comments.sublist
    rw [hs, List.cons_append, List.pairwise_cons] at hsorted
    have hpos := hstreams.nonempty c (ha.comments.subset (by simp [hs]))
    have hnext : Filed tokens (is ++ [.comment c]) { s with comments := cs ++ ds } := by
      refine h.concat hone (fun j hj => h.comments j hj c (by simp [hs])) ⟨by simp, nofun⟩
        (hcs c (List.mem_cons_self ..)) fun d hd => ?_
      have hle := hsorted.1 d hd
      exact .of_stop_le (Nat.lt_of_lt_of_le hpos hle) hle
    have hrest := ih hnext (ha.reaches hone) rfl fun d hd => hcs d (List.mem_cons_of_mem _ hd)
    simpa using hrest

theorem commentItems (h : Filed tokens is s) (ha : Amid tokens comments n s) :
    Returns commentItems s fun new s' => Filed tokens (is ++ new) s' := by
  intro new s' hr
  cases hr
  exact h.taken hstreams ha List.takeWhile_append_dropWhile.symm (hstreams.pending ha)

theorem label {t : Token} {us : List Token} (h : Filed tokens is s)
    (ha : Amid tokens comments n s) (hp : s.Placed) (hr : s.rest = t :: us) :
    Filed tokens (is ++ [.label ⟨t.text, t.span⟩]) (s.past t us) := by
  have hpast : s.Reaches (s.past t us) :=
    ⟨Nat.le_refl _, hr ▸ List.suffix_cons t us, List.suffix_rfl, rfl, rfl⟩
  have hordered := (hstreams.sound ha).ordered
  rw [hr] at hordered
  refine h.concat hpast (fun j hj => ?_) ⟨by simp, nofun⟩ (fun u hu => ?_) fun c hc => ?_
  · have hj := h.ahead j hj t (by rw [hr]; exact List.mem_cons_self ..)
    exact .of_stop_le hj.1 hj.2
  · have hpos := hordered.bound t (List.mem_cons_self ..)
    have hle := List.rel_of_pairwise_cons hordered.apart hu
    exact ⟨Nat.lt_of_lt_of_le hpos.2 hle, hle⟩
  · have hbehind := hstreams.behind ha hp hr c hc
    exact .of_stop_le hbehind.1 hbehind.2

theorem statement {st : Statement} (h : Filed tokens is s) (ha : Amid tokens comments n s)
    (hp : s.Placed) (hst : Covers s.rest s'.rest st.span)
    (hheeds : s.Heeds (Token.ClosesOne tokens (clausesOf st.all)) s') (hr : s.Reaches s')
    (hi : (Part.statement st).InOrder tokens) :
    Filed tokens (is ++ [.statement st]) s' := by
  have hordered := (hstreams.sound ha).ordered
  obtain ⟨t, us, hrest, hstart⟩ : ∃ t us, s.rest = t :: (us ++ s'.rest) ∧
      st.span.start = t.span.start := by
    obtain ⟨first, ts, last, hts, hfirst, -, hspan⟩ := hst
    obtain ⟨us, rfl⟩ := List.head?_eq_some_iff.mp hfirst
    exact ⟨first, us, hts, by rw [hspan]⟩
  refine h.concat hr (fun j hj => ?_) hi.one (fun u hu => ?_) fun c hc => ?_
  · have hj := h.ahead j hj t (by rw [hrest]; exact List.mem_cons_self ..)
    exact .of_stop_le (hstart ▸ hj.1) (hstart ▸ hj.2)
  · have hle := hst.stop_le hordered hu
    rw [hrest] at hordered
    have hpos := hordered.bound t (List.mem_cons_self ..)
    have hlt := List.rel_of_pairwise_cons hordered.apart (List.mem_append_right us hu)
    exact ⟨Nat.lt_of_le_of_lt (Nat.le_of_eq hstart) (Nat.lt_of_lt_of_le hpos.2 hlt), hle⟩
  · have hbehind := hstreams.behind ha hp hrest c (hr.comments.subset hc)
    refine ⟨hstart ▸ hbehind.1, ?_⟩
    obtain hle | hover := hstreams.overruns ha hp hst hheeds hc
    · exact .inl hle
    · exact .inr ⟨st, c, rfl, rfl, hover⟩

end Filed

end Filing

end PickSyntax
