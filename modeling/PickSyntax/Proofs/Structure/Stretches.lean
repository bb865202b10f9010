import PickSyntax.Proofs.Structure.Program

/-!
# Where statements stand

Every statement of a derived part takes tokens of its own, and two statements are either nested
or stand one after the other. Both are properties of stretches of tokens: parts that follow each
other add up, and a stretch may be widened by tokens around it.
-/
namespace PickSyntax

/-- The first statement ends before the second one begins, or it holds the second one. -/
def Statement.Before (a b : Statement) : Prop :=
  a.span.stop ≤ b.span.start ∨ b ∈ a.nested

/-- The statement is written by some of the tokens of `xs` in front of `ys`. -/
def Statement.Stands (xs ys : List Token) (st : Statement) : Prop :=
  ∃ b us vs, us <:+ xs ∧ ys <:+ vs ∧ Derived b us vs (.form st.form) ∧ Covers us vs st.span

namespace Part

/-- The statements of a part, at any depth. -/
@[simp] def statements : Part → List Statement
  | .items is | .branch is _ => Item.statementsAll is
  | .statement st => st.all
  | .form f => f.nested
  | .single st => Statement.all? st
  | .clause c => Clause.nested? c
  | .cases cs => CaseArm.nestedAll cs

/-- The items that a part lists, those of its bodies if it is a form. -/
@[simp] def listed : Part → List Item
  | .items is | .branch is _ => is
  | .statement st => [.statement st]
  | .form f => f.items
  | .single _ => []
  | .clause c => (c.map Clause.items).getD []
  | .cases cs => cs.flatMap CaseArm.body

end Part

namespace Covers
variable {xs ys : List Token} {span : Span} {t : Token}

/-- A covered range begins where one of the covered tokens does. -/
theorem starts (h : Covers xs ys span) :
    ∃ ts, xs = ts ++ ys ∧ ∃ first ∈ ts, span.start = first.span.start := by
  obtain ⟨first, ts, last, hxs, hfirst, -, rfl⟩ := h
  exact ⟨ts, hxs, first, List.mem_of_mem_head? hfirst, rfl⟩

theorem start_le (h : Covers xs ys span) (ho : Ordered 0 xs) (ht : t ∈ xs) :
    span.start ≤ t.span.start := by
  obtain ⟨first, ts, last, rfl, hfirst, -, rfl⟩ := h
  apply ho.head_start_le _ ht
  rw [List.head?_append, hfirst]
  rfl

/-- A covered range ends before the tokens that follow. -/
theorem stop_le (h : Covers xs ys span) (ho : Ordered 0 xs) (ht : t ∈ ys) :
    span.stop ≤ t.span.start := by
  obtain ⟨first, ts, last, rfl, -, hlast, rfl⟩ := h
  exact ho.stop_le_start (List.mem_of_getLast? hlast) ht

/-- The tokens in front of those that follow end inside the range. -/
theorem le_stop {us : List Token} (h : Covers (us ++ ys) ys span) (ho : Ordered 0 (us ++ ys))
    (ht : t ∈ us) : t.span.stop ≤ span.stop := by
  obtain ⟨first, ts, last, hus, -, hlast, rfl⟩ := h
  rw [List.append_cancel_right hus] at ho ht
  exact ho.append_left.stop_le_getLast hlast ht

/-- A range ends with the last token in front of those that follow. -/
theorem stop_eq {us : List Token} (h : Covers (us ++ ys) ys span) (ht : us.getLast? = some t) :
    t.span.stop = span.stop := by
  obtain ⟨first, ts, last, hus, -, hlast, rfl⟩ := h
  rw [List.append_cancel_right hus, hlast] at ht
  cases ht
  rfl

/-- The range of one token. -/
theorem single (h : Covers (t :: ys) ys span) : span = t.span := by
  obtain ⟨first, ts, last, hts, hfirst, hlast, rfl⟩ := h
  obtain rfl : ts = [t] := (@List.append_cancel_right _ [t] ys ts hts).symm
  cases hfirst
  cases hlast
  rfl

end Covers

namespace Statement.Stands
variable {us vs ws xs ys zs : List Token} {a b : Statement} {t : Token}

theorem widen (h : a.Stands us vs) (hx : us <:+ xs) (hy : ys <:+ vs) : a.Stands xs ys := by
  obtain ⟨b, us', vs', hus, hvs, hd, hc⟩ := h
  exact ⟨b, us', vs', hus.trans hx, hy.trans hvs, hd, hc⟩

/-- A statement ends before the tokens behind it. -/
theorem stop_le (h : a.Stands xs ys) (ho : Ordered 0 xs) (ht : t ∈ ys) :
    a.span.stop ≤ t.span.start := by
  obtain ⟨b, us, vs, hus, hvs, -, hc⟩ := h
  exact hc.stop_le (ho.suffix hus) (hvs.subset ht)

/-- A statement begins at one of the tokens that it stands among. -/
theorem start_mem (h : a.Stands xs ys) : ∃ t ∈ xs, a.span.start = t.span.start := by
  obtain ⟨b, us, vs, hus, -, -, hc⟩ := h
  obtain ⟨ts, rfl, first, hfirst, hstart⟩ := hc.starts
  exact ⟨first, hus.subset (List.mem_append_left _ hfirst), hstart⟩

end Statement.Stands

/-- What is known of the statements and items that are written by the tokens of `xs` in front
of `ys`. -/
structure Stretch (xs ys : List Token) (sts : List Statement) (is : List Item) : Prop where
  suffix : ys <:+ xs
  stands : ∀ st ∈ sts, st.Stands xs ys
  order : Ordered 0 xs → sts.Pairwise Statement.Before
  ends : Ordered 0 xs → ∀ i ∈ is, ∀ t ∈ ys, i.span.stop ≤ t.span.start

namespace Stretch
variable {us vs xs ys zs : List Token} {sts tss : List Statement} {is js : List Item}

theorem nil : Stretch xs xs [] [] := ⟨List.suffix_rfl, nofun, fun _ => .nil, nofun⟩

theorem widen (h : Stretch us vs sts is) (hx : us <:+ xs) (hy : ys <:+ vs) :
    Stretch xs ys sts is where
  suffix := (hy.trans h.suffix).trans hx
  stands st hst := (h.stands st hst).widen hx hy
  order ho := h.order (ho.suffix hx)
  ends ho i hi t ht := h.ends (ho.suffix hx) i hi t (hy.subset ht)

theorem append (h : Stretch xs ys sts is) (k : Stretch ys zs tss js) :
    Stretch xs zs (sts ++ tss) (is ++ js) where
  suffix := k.suffix.trans h.suffix
  stands st hst := by
    obtain hst | hst := List.mem_append.mp hst
    · exact (h.stands st hst).widen List.suffix_rfl k.suffix
    · exact (k.stands st hst).widen h.suffix List.suffix_rfl
  order ho := by
    refine List.pairwise_append.mpr ⟨h.order ho, k.order (ho.suffix h.suffix), ?_⟩
    intro a ha b hb
    obtain ⟨t, ht, hstart⟩ := (k.stands b hb).start_mem
    have hle := (h.stands a ha).stop_le ho ht
    rw [← hstart] at hle
    exact .inl hle
  ends ho i hi t ht := by
    obtain hi | hi := List.mem_append.mp hi
    · exact h.ends ho i hi t (k.suffix.subset ht)
    · exact k.ends (ho.suffix h.suffix) i hi t ht

/-- Other items may be listed where they end in time. -/
theorem listing (h : Stretch xs ys sts is)
    (hj : Ordered 0 xs → ∀ j ∈ js, j ∈ is ∨ ∀ t ∈ ys, j.span.stop ≤ t.span.start) :
    Stretch xs ys sts js where
  suffix := h.suffix
  stands := h.stands
  order := h.order
  ends ho j hjs := by
    obtain hi | hends := hj ho j hjs
    · exact h.ends ho j hi
    · exact hends

/-- A statement around a stretch. -/
theorem statement {b : Bool} {f : Form} {span : Span} (h : Stretch xs ys f.nested is)
    (hd : Derived b xs ys (.form f)) (hc : Covers xs ys span) :
    Stretch xs ys (Statement.all ⟨f, span⟩) [.statement ⟨f, span⟩] where
  suffix := h.suffix
  stands st hst := by
    rw [Statement.all_eq] at hst
    obtain rfl | hst := List.mem_cons.mp hst
    · exact ⟨b, xs, ys, List.suffix_rfl, List.suffix_rfl, hd, hc⟩
    · exact h.stands st hst
  order ho := by
    rw [Statement.all_eq]
    exact .cons (fun st hst => .inr hst) (h.order ho)
  ends ho i hi t ht := by
    obtain rfl := List.mem_singleton.mp hi
    exact hc.stop_le ho ht

end Stretch

theorem NextName.suffix {vs ys : List Token} {name : Option String} (h : NextName vs ys name) :
    ys <:+ vs := by
  cases h with
  | absent => exact List.suffix_rfl
  | named => exact List.suffix_cons _ _

theorem Closed.suffix {vs ys : List Token} {layout layout' : ClauseLayout}
    (h : Closed vs ys layout layout') : ys <:+ vs := by
  cases h with
  | asIs => exact List.suffix_rfl
  | byEnd => exact List.suffix_cons _ _

namespace Derived
variable {b : Bool} {xs ys : List Token} {p : Part}

/-- A statement begins with the first of its tokens. -/
theorem statement_starts {st : Statement} (h : Derived b xs ys (.statement st)) :
    ∃ t ts, xs = t :: ts ∧ st.span.start = t.span.start := by
  cases h with
  | statement _ hc =>
    obtain ⟨first, ts, last, rfl, hfirst, -, rfl⟩ := hc
    obtain ⟨us, rfl⟩ := List.head?_eq_some_iff.mp hfirst
    exact ⟨first, us ++ ys, rfl, rfl⟩

open List in
/-- Every derived part is a stretch. -/
theorem stretch (h : Derived b xs ys p) : Stretch xs ys p.statements p.listed := by
  induction h with
  | nil => exact .nil
  | comments _ hc ih =>
    simp only [Part.statements, Part.listed, Item.statementsAll_append,
      Item.statementsAll_comments, append_nil] at ih ⊢
    refine ih.listing fun _ i hi => (mem_append.mp hi).imp_right fun hi => ?_
    obtain ⟨c, hcs, rfl⟩ := mem_map.mp hi
    exact hc c hcs
  | separator _ _ ih => exact ih.widen suffix_rfl (suffix_cons _ _)
  | @label _ xs ys t _ _ _ ih =>
    simp only [Part.statements, Part.listed, Item.statementsAll_append,
      Item.statementsAll_label, append_nil] at ih ⊢
    refine (ih.widen suffix_rfl (suffix_cons t ys)).listing fun ho i hi => ?_
    refine (mem_append.mp hi).imp_right fun hi u hu => ?_
    obtain rfl := mem_singleton.mp hi
    exact (pairwise_cons.mp (ho.suffix ih.suffix).apart).1 u hu
  | item _ _ _ ih₁ ih₂ => simpa using ih₁.append ih₂
  | statement hd hc ih => exact ih.statement hd hc
  | endUnit => exact Stretch.nil.widen (suffix_cons _ _) suffix_rfl
  | attached ha hw _ _ _ ih₁ ih₂ ih₃ =>
    have h := (ih₁.append (ih₂.append ih₃)).widen hw suffix_rfl
    rw [Part.statements, Form.nested_of_attachments ha, Part.listed, Form.items_of_attachments ha]
    exact h
  | forNext hu _ _ hn ih => exact ih.widen hu (hn.suffix.trans (suffix_cons _ _))
  | loop hu _ _ ih =>
    simpa [Form.nested, Form.items] using
      ih.widen hu (suffix_cons _ _)
  | loopGuarded hu _ hw _ _ ih₁ ih₂ =>
    exact (ih₁.append (ih₂.widen hw (suffix_cons _ _))).widen hu suffix_rfl
  | beginCase hu _ _ _ _ ih => exact ih.widen hu ((suffix_cons _ _).trans (suffix_cons _ _))
  | noCase => exact .nil
  | caseSeparator _ _ ih => exact ih.widen suffix_rfl (suffix_cons _ _)
  | case _ _ hv _ hc ih₁ ih₂ =>
    simp only [Part.statements, Part.listed, CaseArm.nestedAll_concat, Item.statementsAll_append,
      Item.statementsAll_comments, nil_append, flatMap_append, flatMap_singleton] at ih₁ ih₂ ⊢
    refine ih₁.append ((ih₂.widen (hv.trans (suffix_cons _ _)) suffix_rfl).listing fun _ i hi => ?_)
    refine (mem_append.mp hi).symm.imp_right fun hi => ?_
    obtain ⟨c, hcs, rfl⟩ := mem_map.mp hi
    exact hc c hcs
  | noSingle => exact .nil
  | single hu _ _ ih =>
    exact (ih.widen ((suffix_cons _ _).trans hu) suffix_rfl).listing fun _ j hj => by cases hj
  | noClause => exact .nil
  | thenInline _ _ hc ih =>
    simpa using
      ih.widen (suffix_cons _ _) hc.suffix
  | thenInlineElse _ _ _ hc ih₁ ih₂ =>
    simpa using
      (ih₁.append ih₂).widen (suffix_cons _ _) hc.suffix
  | elseOnly _ hc ih =>
    simpa using
      ih.widen suffix_rfl hc.suffix
  | thenBlock _ _ _ ih =>
    simpa using
      ih.widen (suffix_cons _ _) (suffix_cons _ _)
  | thenBlockEndElse _ _ _ _ ih₁ ih₂ =>
    simpa using
      (ih₁.append (ih₂.widen (suffix_cons _ _) suffix_rfl)).widen (suffix_cons _ _) suffix_rfl
  | thenBlockElse _ _ _ _ _ ih₁ ih₂ =>
    simpa using
      (ih₁.append (ih₂.widen (suffix_cons _ _) (suffix_cons _ _))).widen (suffix_cons _ _) suffix_rfl
  | elseInline _ _ ih =>
    simpa using ih.widen (suffix_cons _ _) suffix_rfl
  | elseBlock _ _ _ ih => exact ih.widen (suffix_cons _ _) (suffix_cons _ _)

theorem suffix (h : Derived b xs ys p) : ys <:+ xs := h.stretch.suffix

end Derived

end PickSyntax
