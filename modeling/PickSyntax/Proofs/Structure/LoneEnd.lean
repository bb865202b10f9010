import PickSyntax.Proofs.Structure.Stretches

/-!
# Where a lone `END` is a statement

A lone `END` in a list of statements closes the innermost branch that is open around it, and is
a statement where there is none. Only a statement that the line demands, after `THEN`, `ELSE`,
`ON ERROR` or `LOCKED`, is read without asking what is open: there an `END` is always a statement,
also within a branch that it could close.
-/
namespace PickSyntax

/-- A branch with the keyword in front of it. -/
structure Branch where
  keyword : Keyword
  items : List Item

def Clause.branches (c : Clause) : List Branch :=
  (c.thenBody.map (Branch.mk .THEN)).toList ++ (c.elseBody.map (Branch.mk .ELSE)).toList

/-- The branches of all statements of a program, at any depth. -/
def Program.branches (p : Program) : List Branch :=
  p.allStatements.flatMap fun st => (st.form.clause?.map Clause.branches).getD []

def Item.isComment : Item → Bool
  | .comment _ => true
  | _ => false

namespace Branch

/-- Where the first statement or label begins. -/
def start? (q : Branch) : Option Nat :=
  (q.items.find? fun i => !i.isComment).map fun i => i.span.start

/-- The tokens begin with the keyword of the branch, the line ends there, and the branch begins
after it. -/
def opensAt (q : Branch) : List Token → Bool
  | [] => false
  | t :: us => t.kind = .keyword q.keyword && us.head?.any Token.lineStart &&
      (us.dropWhile fun u => u.kind = .symbol .semicolon).head?.map (·.span.start) = q.start?

/-- The keyword of the branch is the last token of its line. -/
def opensLine (tokens : List Token) (q : Branch) : Bool := tokens.tails.any q.opensAt

end Branch

/-- The statement is an `END`. -/
def Statement.isEnd (st : Statement) : Bool :=
  match st.form with
  | .endUnit => true
  | _ => false

theorem Statement.form_of_isEnd {st : Statement} (h : st.isEnd = true) : st.form = .endUnit := by
  unfold isEnd at h
  split at h
  next heq => exact heq
  next => cases h

/-- The statement is an `END` that stands on one line behind a keyword which one statement
follows. -/
def Statement.Demanded (tokens : List Token) (st : Statement) : Prop :=
  ∃ before t u after, tokens = before ++ t :: u :: after ∧
    (∃ k ∈ [Keyword.THEN, .ELSE, .ERROR, .LOCKED], t.kind = .keyword k) ∧
    u.kind = .keyword .END ∧ u.lineStart = false ∧ st.span = u.span

/-- In a branch that begins on a line of its own, an `END` closes a block. -/
def EndClosesBranches : Prop :=
  ∀ source, (parse source).diagnostics = [] → ∀ q ∈ (parse source).program.branches,
    q.opensLine (lex source).tokens = true → ∀ st ∈ Item.statementsAll q.items, st.isEnd = false

/-- After `THEN` on one line it does not. -/
theorem not_endClosesBranches : ¬EndClosesBranches := by
  intro h
  have h := h "IF X THEN\nIF Y THEN END\nEND"
  revert h
  decide +kernel

/-- All `END` statements among these are demanded by the line that they stand on. -/
def Demands (tokens : List Token) (sts : List Statement) : Prop :=
  ∀ st ∈ sts, st.isEnd = true → st.Demanded tokens

namespace Demands
variable {us xs ys : List Token} {sts tss : List Statement}

theorem nil : Demands xs [] := nofun

theorem widen (h : Demands us sts) (hx : us <:+ xs) : Demands xs sts := by
  intro st hst hend
  obtain ⟨before, t, u, after, rfl, ht, hu⟩ := h st hst hend
  obtain ⟨front, rfl⟩ := hx
  exact ⟨front ++ before, t, u, after, (List.append_assoc ..).symm, ht, hu⟩

theorem append (h : Demands xs sts) (k : Demands ys tss) (hx : ys <:+ xs) :
    Demands xs (sts ++ tss) := by
  intro st hst
  obtain hst | hst := List.mem_append.mp hst
  · exact h st hst
  · exact k.widen hx st hst

end Demands

/-- The statements in a part, of a statement only those nested in it. -/
@[simp] def Part.within : Part → List Statement
  | .statement st => st.nested
  | p => p.statements

namespace Derived
variable {b : Bool} {us xs ys : List Token} {t : Token} {p : Part} {st : Statement}

/-- An `END` statement is the token that it is written by. -/
theorem end_token (h : Derived b xs ys (.statement st)) (hend : st.isEnd = true) :
    ∃ t, xs = t :: ys ∧ LoneEnd t ys ∧ st.span = t.span := by
  obtain ⟨t, rfl, hlone⟩ := Grammar.loneEnd_of_endUnit h (Statement.form_of_isEnd hend)
  cases h with
  | statement _ hc => exact ⟨t, rfl, hlone, hc.single⟩

/-- The one statement behind a keyword. -/
theorem demands_single {ks : List Keyword} (hd : Derived b us ys (.statement st))
    (ht : Leads ks t us) (hks : ks ⊆ [.THEN, .ELSE, .ERROR, .LOCKED])
    (h : Demands us st.nested) : Demands (t :: us) st.all := by
  rw [Statement.all_eq]
  intro e he hend
  obtain rfl | he := List.mem_cons.mp he
  · obtain ⟨u, rfl, hlone, hspan⟩ := hd.end_token hend
    obtain ⟨k, hk, htk⟩ := ht.kind
    exact ⟨[], t, u, ys, rfl, ⟨k, hks hk, htk⟩, hlone.kind, ht.line u rfl, hspan⟩
  · exact h.widen (List.suffix_cons t us) e he hend

open List in
/-- Within a branch that `END` closes, every `END` statement is demanded by its line. -/
theorem demands (h : Derived b xs ys p) (hb : b = true) : Demands xs p.within := by
  induction h with
  | nil => exact .nil
  | comments _ _ ih => simpa using ih hb
  | separator _ _ ih => exact ih hb
  | label _ _ ih => simpa using ih hb
  | item hd _ hne ih₁ ih₂ =>
    simp only [Part.within, Part.statements, Item.statementsAll_append,
      Item.statementsAll_statement, Item.statementsAll_nil, append_nil, Statement.all_eq]
    refine (ih₁ hb).append (fun e he hend => ?_) hd.suffix
    obtain rfl | he := mem_cons.mp he
    · exact absurd (Statement.form_of_isEnd hend) (hne hb)
    · exact ih₂ hb e he hend
  | statement hd hc ih => exact ih hb
  | endUnit => exact .nil
  | attached ha hw hd₁ hd₂ _ ih₁ ih₂ ih₃ =>
    simp only [Part.within, Part.statements, Form.nested_of_attachments ha]
    exact ((ih₁ hb).append ((ih₂ hb).append (ih₃ hb) hd₂.suffix)
      hd₁.suffix).widen hw
  | forNext hu _ _ _ ih => exact (ih hb).widen hu
  | loop hu _ _ ih => simpa [Form.nested] using (ih hb).widen hu
  | loopGuarded hu hd hw _ _ ih₁ ih₂ =>
    exact ((ih₁ hb).append (ih₂ hb) (hw.trans hd.suffix)).widen hu
  | beginCase hu _ _ _ _ ih => exact (ih hb).widen hu
  | noCase => exact .nil
  | caseSeparator _ _ ih => exact ih hb
  | case hd _ hv _ _ ih₁ ih₂ =>
    simpa using (ih₁ hb).append (ih₂ hb)
      (hv.trans ((suffix_cons _ _).trans hd.suffix))
  | noSingle => exact .nil
  | single hu ht hd ih => exact (hd.demands_single ht (by simp) (ih hb)).widen hu
  | noClause => exact .nil
  | thenInline ht hd _ ih =>
    simpa using
      hd.demands_single ht (by simp) (ih hb)
  | thenInlineElse ht hd _ _ ih₁ ih₂ =>
    simpa using
      (hd.demands_single ht (by simp) (ih₁ hb)).append (ih₂ hb)
        (hd.suffix.trans (suffix_cons _ _))
  | elseOnly _ _ ih => simpa using ih hb
  | thenBlock _ _ _ ih =>
    simpa using (ih rfl).widen (suffix_cons _ _)
  | thenBlockEndElse _ hd _ _ ih₁ ih₂ =>
    simpa using
      ((ih₁ rfl).append (ih₂ hb) ((suffix_cons _ _).trans hd.suffix)).widen (suffix_cons _ _)
  | thenBlockElse _ hd _ _ _ ih₁ ih₂ =>
    simpa using
      ((ih₁ rfl).append (ih₂ rfl) ((suffix_cons _ _).trans hd.suffix)).widen
        (suffix_cons _ _)
  | elseInline ht hd ih => simpa using hd.demands_single ht (by simp) (ih hb)
  | elseBlock _ _ _ ih => exact (ih rfl).widen (suffix_cons _ _)

end Derived

namespace Branch

/-- The branch is one statement on the line of its keyword. -/
def Inline (tokens : List Token) (q : Branch) : Prop :=
  ∃ t u us st, (t :: u :: us) <:+ tokens ∧ t.kind = .keyword q.keyword ∧ u.lineStart = false ∧
    q.items = [.statement st] ∧ st.span.start = u.span.start

theorem Inline.widen {us xs : List Token} {q : Branch} (h : q.Inline us) (hx : us <:+ xs) :
    q.Inline xs := by
  obtain ⟨t, u, vs, st, hsuffix, h⟩ := h
  exact ⟨t, u, vs, st, hsuffix.trans hx, h⟩

/-- Nothing is dropped where the rest stands behind something that would not be dropped. -/
theorem dropWhile_eq_self {α : Type} {p : α → Bool} {t : α} {vs ts : List α}
    (ht : (t :: vs.dropWhile p) <:+ ts) (hv : vs <:+ ts) (hp : p t = false) :
    vs.dropWhile p = vs := by
  have hsplit : vs.takeWhile p ++ vs.dropWhile p = vs := List.takeWhile_append_dropWhile
  obtain hnone | ⟨front, s, hfront⟩ := List.eq_nil_or_concat (vs.takeWhile p)
  · rwa [hnone, List.nil_append] at hsplit
  · have hs : (s :: vs.dropWhile p) <:+ ts := by
      refine List.IsSuffix.trans ⟨front, ?_⟩ hv
      rwa [hfront, List.concat_eq_append, List.append_assoc] at hsplit
    have heq := (List.suffix_of_suffix_length_le hs ht (Nat.le_refl _)).eq_of_length rfl
    have hmem : t ∈ vs.takeWhile p := by
      rw [hfront, ← (List.cons.inj heq).1]
      simp
    rw [List.mem_takeWhile_imp hmem] at hp
    cases hp

/-- The keyword of an inline branch does not end its line. -/
theorem Inline.not_opensLine {tokens : List Token} {q : Branch} (h : q.Inline tokens)
    (ho : Ordered 0 tokens) : q.opensLine tokens = false := by
  obtain ⟨t, u, us, st, hsuffix, hkind, hline, hitems, hstart⟩ := h
  have hbegins : q.start? = some u.span.start := by
    rw [start?, hitems, ← hstart]
    rfl
  apply List.any_eq_false.mpr
  intro ws hws hopens
  cases ws with
  | nil => cases hopens
  | cons w vs =>
    simp only [opensAt, hbegins, Bool.and_eq_true, decide_eq_true_eq, Option.map_eq_some_iff] at hopens
    obtain ⟨⟨-, hnew⟩, v, hv, hvu⟩ := hopens
    have hvs : vs <:+ tokens := (List.suffix_cons w vs).trans ((List.mem_tails _ _).mp hws)
    obtain ⟨rest, hrest⟩ := List.head?_eq_some_iff.mp hv
    have hus : v :: rest = u :: us :=
      ho.suffix_unique ((hrest ▸ List.dropWhile_suffix _).trans hvs)
        ((List.suffix_cons t _).trans hsuffix) hvu
    -- The two keywords are one token, so what begins the branch would begin the line.
    have hall := dropWhile_eq_self (hrest ▸ hus ▸ hsuffix) hvs (by simp [hkind])
    rw [hrest, hus] at hall
    simp [← hall, hline] at hnew

end Branch

namespace Derived
variable {b : Bool} {us xs ys : List Token} {t : Token}

theorem inline_branch {k : Keyword} {st : Statement} (hd : Derived b us ys (.statement st))
    (ht : Leads [k] t us) : (Branch.mk k [.statement st]).Inline (t :: us) := by
  obtain ⟨u, us, rfl, hstart⟩ := hd.statement_starts
  obtain ⟨_, hk, htk⟩ := ht.kind
  obtain rfl := List.mem_singleton.mp hk
  exact ⟨t, u, us, st, List.suffix_rfl, htk, ht.line u rfl, rfl, hstart⟩

theorem else_branch {is : List Item} {layout : ClauseLayout}
    (h : Derived b xs ys (.branch is layout)) :
    (Branch.mk .ELSE is).Inline xs ∨ Demands xs (Item.statementsAll is) := by
  cases h with
  | elseInline ht hd => exact .inl (hd.inline_branch ht)
  | elseBlock _ hd _ => exact .inr ((hd.demands rfl).widen (List.suffix_cons _ _))

open List in
/-- A branch is inline, or an `END` would close it. -/
theorem clause_branches {c : Clause} (h : Derived b xs ys (.clause (some c))) :
    ∀ q ∈ c.branches, q.Inline xs ∨ Demands xs (Item.statementsAll q.items) := by
  intro q hq
  cases h with
  | thenInline ht hd _ =>
    obtain rfl := mem_singleton.mp hq
    exact .inl (hd.inline_branch ht)
  | @thenInlineElse _ us vs _ _ t _ _ _ _ ht hd hb _ =>
    obtain rfl | hq := mem_cons.mp hq
    · exact .inl (hd.inline_branch ht)
    · obtain rfl := mem_singleton.mp hq
      have hx : vs <:+ t :: us := hd.suffix.trans (suffix_cons _ _)
      exact hb.else_branch.imp (·.widen hx) (·.widen hx)
  | elseOnly hb _ =>
    obtain rfl := mem_singleton.mp hq
    exact hb.else_branch
  | thenBlock _ hd _ =>
    obtain rfl := mem_singleton.mp hq
    exact .inr ((hd.demands rfl).widen (suffix_cons _ _))
  | @thenBlockEndElse _ us vs _ t _ _ _ _ _ hd _ hb =>
    obtain rfl | hq := mem_cons.mp hq
    · exact .inr ((hd.demands rfl).widen (suffix_cons _ _))
    · obtain rfl := mem_singleton.mp hq
      have hx : vs <:+ t :: us :=
        ((suffix_cons _ _).trans hd.suffix).trans (suffix_cons _ _)
      exact hb.else_branch.imp (·.widen hx) (·.widen hx)
  | @thenBlockElse _ us vs _ t _ _ _ _ _ hd _ he _ =>
    obtain rfl | hq := mem_cons.mp hq
    · exact .inr ((hd.demands rfl).widen (suffix_cons _ _))
    · obtain rfl := mem_singleton.mp hq
      have hx : vs <:+ t :: us :=
        ((suffix_cons _ _).trans hd.suffix).trans (suffix_cons _ _)
      exact .inr ((he.demands rfl).widen hx)

/-- The branches of a form are derived from some of its tokens. -/
theorem form_clause {f : Form} {c : Clause} (h : Derived b xs ys (.form f))
    (hc : f.clause? = some c) : ∃ us, us <:+ xs ∧ Derived b us ys (.clause (some c)) := by
  cases h with
  | attached ha hw hd₁ hd₂ hd₃ =>
    rw [Form.clause?_of_attachments ha] at hc
    rw [hc] at hd₃
    exact ⟨_, (hd₂.suffix.trans hd₁.suffix).trans hw, hd₃⟩
  | _ => cases hc

end Derived

/-- In a branch that begins on a line of its own, each `END` that is a statement is the one
statement behind a `THEN`, an `ELSE`, an `ON ERROR` or a `LOCKED` on its line. -/
theorem end_demanded {options : Options} {source : String}
    (h : (parseWith options source).diagnostics = []) :
    ∀ q ∈ (parseWith options source).program.branches, q.opensLine (lex source).tokens = true →
      ∀ st ∈ Item.statementsAll q.items, st.isEnd = true → st.Demanded (lex source).tokens := by
  intro q hq hopens
  have hderived := parse_derived (Diagnostic.nil_of_report h).2
  obtain ⟨st, hst, hq⟩ := List.mem_flatMap.mp hq
  obtain ⟨b, us, vs, hus, -, hd, -⟩ := hderived.stretch.stands st hst
  cases hc : st.form.clause? with
  | none =>
    rw [hc] at hq
    cases hq
  | some c =>
    rw [hc] at hq
    obtain ⟨ws, hws, hclause⟩ := hd.form_clause hc
    obtain hinline | hdemands := hclause.clause_branches q hq
    · have hnot := (hinline.widen (hws.trans hus)).not_opensLine (lex_ordered source)
      rw [hnot] at hopens
      cases hopens
    · exact hdemands.widen (hws.trans hus)

/-- The `END` after the second `THEN` is a statement within the first branch. -/
theorem end_demanded_then :
    (parse "IF X THEN\nIF Y THEN END\nEND").diagnostics = [] ∧
      ∀ q ∈ (parse "IF X THEN\nIF Y THEN END\nEND").program.branches,
        q.opensLine (lex "IF X THEN\nIF Y THEN END\nEND").tokens = true →
        ∀ st ∈ Item.statementsAll q.items, st.isEnd = true →
          st.Demanded (lex "IF X THEN\nIF Y THEN END\nEND").tokens := by
  have h : (parse "IF X THEN\nIF Y THEN END\nEND").diagnostics = [] := by decide +kernel
  exact ⟨h, @end_demanded {} _ h⟩

end PickSyntax
