import Mathlib
import PickSyntax.Proofs.Expression.Ranked
import PickSyntax.Proofs.Expression.Spelled
import PickSyntax.Proofs.Parser.Outcome

/-!
# What precedence climbing leaves behind

Every parser of expressions is given its outcome: the tokens it takes spell the tree that
it yields, the tree is ranked, and the operator at the root binds above the level asked
for. The invariant that carries the chain of infix operators speaks about the cursor: the
operator that is next, if any, binds no tighter than the level just read (`Stops`). A
nested operand stops there by its own level, and that is what makes it fit as a left
operand of the operator that comes next.

The main statement is about `expression` from any state of the parser.
-/
namespace PickSyntax.Grammar

open PickSyntax.Parser

/-- The infix operator at the cursor, if there is one, does not bind above the level. -/
def Stops (level : Nat) (s : State) : Prop :=
  ∀ op width, infixAt? s.angled s.rest = some (op, width) → op.level ≤ level

/-- The outcome of an expression read above a level. -/
structure Climbed (level : Nat) (ts : List Token) (e : Expr) (s : State) : Prop where
  spells : Spells ts [e]
  ranked : e.Ranked
  above : ∀ k, e.infixLevel? = some k → level < k
  stops : Stops level s

/-- The outcome of an operand: no binary node at the root. -/
structure Whole (ts : List Token) (e : Expr) : Prop where
  spells : Spells ts [e]
  ranked : e.Ranked
  root : e.infixLevel? = none

/-- The outcome of one or more expressions between brackets. -/
def Listed (ts : List Token) (es : List Expr) : Prop := Spells ts es ∧ Expr.RankedAll es

theorem Climbed.listed {level : Nat} {ts : List Token} {e : Expr} {s : State}
    (h : Climbed level ts e s) : Listed ts [e] :=
  ⟨h.spells, by simpa using h.ranked⟩

/-- Properties of expressions between brackets that carry on over a comma. -/
class Listable (P : List Token → List Expr → Prop) : Prop where
  nothing : P [] []
  comma : ∀ {ts us : List Token} {c : Token} {es : List Expr} {e : Expr}, P ts es → es ≠ [] →
    c.kind = .symbol .comma → P us [e] → P (ts ++ c :: us) (es ++ [e])

instance : Listable Listed where
  nothing := ⟨.nothing, by simp⟩
  comma h hne hc he := ⟨.comma h.1 hne hc he.1, by simpa using ⟨h.2, by simpa using he.2⟩⟩

theorem listed_of_separated {P : List Token → List Expr → Prop} [Listable P] {ts : List Token}
    {es : List Expr} (h : Separated (fun ts e => P ts [e]) ts es) : P ts es ∧ es ≠ [] := by
  induction h with
  | one h => exact ⟨h, by simp⟩
  | more _ hc he ih => exact ⟨Listable.comma ih.1 ih.2 hc he, by simp⟩

/-- A symbol that spells an operator alone does so wherever it stands. -/
theorem binaryOfSymbol?_one {angled : Bool} {y : Symbol} {z : Option Symbol} {op : BinaryOp}
    (h : binaryOfSymbol? angled y z = some (op, 1)) :
    binaryOfSymbol? false y none = some (op, 1) := by
  unfold binaryOfSymbol? at h
  split at h <;> grind [binaryOfSymbol?]

theorem binaryOfSymbol?_two {angled : Bool} {y : Symbol} {z : Option Symbol} {op : BinaryOp}
    (h : binaryOfSymbol? angled y z = some (op, 2)) :
    ∃ w, z = some w ∧ binaryOfSymbol? false y (some w) = some (op, 2) := by
  unfold binaryOfSymbol? at h
  split at h <;> grind [binaryOfSymbol?]

theorem binaryOfSymbol?_width {angled : Bool} {y : Symbol} {z : Option Symbol} {op : BinaryOp}
    {width : Nat} (h : binaryOfSymbol? angled y z = some (op, width)) : width = 1 ∨ width = 2 := by
  unfold binaryOfSymbol? at h
  split at h <;> grind

/-- The tokens at the cursor spell the operator that is found there. -/
theorem spelling_of_binaryAt? {angled : Bool} {tokens : List Token} {op : BinaryOp} {width : Nat}
    (h : binaryAt? angled tokens = some (op, width)) :
    ∃ us vs, tokens = us ++ vs ∧ us.length = width ∧ op.Spelling us := by
  unfold binaryAt? at h
  split at h
  next => cases h
  next t ts =>
    split at h
    next => cases h
    next =>
      split at h
      next y hk =>
        obtain rfl | rfl := binaryOfSymbol?_width h
        · exact ⟨[t], ts, rfl, rfl, .mark hk (binaryOfSymbol?_one h)⟩
        · obtain ⟨z, hz, hop⟩ := binaryOfSymbol?_two h
          cases ts with
          | nil => cases hz
          | cons u ts =>
            simp only [symbolBeside?] at hz
            split at hz
            next => cases hz
            next hs =>
              split at hz
              next w hw =>
                cases hz
                exact ⟨[t, u], ts, rfl, rfl, .marks hk hw (by simpa using hs) hop⟩
              next => cases hz
      next k hk =>
        simp only [Option.map_eq_some_iff, Prod.mk.injEq] at h
        obtain ⟨_, hop, rfl, rfl⟩ := h
        exact ⟨[t], ts, rfl, rfl, .word hk hop⟩
      next => cases h

theorem binaryAt?_of_infixAt? {angled : Bool} {tokens : List Token} {op : BinaryOp} {width : Nat}
    (h : infixAt? angled tokens = some (op, width)) :
    binaryAt? angled tokens = some (op, width) := by
  unfold infixAt? at h
  split at h
  next => cases h
  next hb =>
    split at h
    next => cases h
    next =>
      split at h
      · rw [hb, ← h]
      · cases h

/-- The token that an attachment begins with. -/
theorem opening_of_attachment (ts : List Token) :
    match attachment ts with
    | .none => True
    | .call => ∃ t us, ts = t :: us ∧ t.kind = .symbol .leftParen
    | .dynamic => ∃ t us, ts = t :: us ∧ t.kind = .symbol .less
    | .substring => ∃ t us, ts = t :: us ∧ t.kind = .symbol .leftBracket := by
  cases ts with
  | nil => trivial
  | cons t us => cases h : attachment (t :: us) <;> grind [attachment]

/-- A parenthesis that directly follows a word opens its arguments. -/
theorem attachment_of_isBeforeParen {t : Token} {us : List Token}
    (h : isBeforeParen (t :: us) = true) : attachment us = .call := by
  simp only [isBeforeParen, List.tail_cons, beq_iff_eq] at h
  cases us with
  | nil => cases h
  | cons u us => grind [symbolBeside?, attachment]

theorem level_pos (op : BinaryOp) : 0 < op.level := by
  cases op <;> decide

/-- Nothing binds above the level of the signs, so their operand is whole. -/
theorem Climbed.whole {ts : List Token} {e : Expr} {s : State}
    (h : Climbed UnaryOp.level ts e s) : e.infixLevel? = none := by
  cases he : e.infixLevel? with
  | none => rfl
  | some k =>
    have hk := h.above k he
    cases e with
    | binary _ op _ _ =>
      cases he
      cases op <;> simp [BinaryOp.level, UnaryOp.level] at hk
    | _ => cases he

/-- An operand read above the right level of an operator fits on its right. -/
theorem fits_right {op : BinaryOp} {k : Nat} (h : op.rightLevel < k) :
    op.level ≤ k ∧ (op ≠ .pow → op.level < k) := by
  cases op <;>
    simp only [BinaryOp.rightLevel, BinaryOp.groupsRight, BinaryOp.level] at h ⊢ <;>
    grind

/-- An operator that stops the right operand of another may have that one on its left. -/
theorem fits_left {op op' : BinaryOp} (h : op.level ≤ op'.rightLevel) :
    op.level ≤ op'.level ∧ (op = .pow → op.level < op'.level) := by
  cases op <;> cases op' <;> revert h <;> decide

/-- What the chain has read so far: an operand, or a binary node whose operator binds above
the level and whose right operand has stopped where the cursor is. -/
structure Chained (level : Nat) (ts : List Token) (e : Expr) (s : State) : Prop where
  spells : Spells ts [e]
  ranked : e.Ranked
  above : ∀ k, e.infixLevel? = some k → level < k
  fits : ∀ op width k, infixAt? s.angled s.rest = some (op, width) → e.infixLevel? = some k →
    op.level ≤ k ∧ (op = .pow → op.level < k)

/-- An operand may begin a chain at any level. -/
theorem Whole.chained {level : Nat} {ts : List Token} {e : Expr} {s : State} (h : Whole ts e) :
    Chained level ts e s := by
  refine ⟨h.spells, h.ranked, ?_, ?_⟩
  · intro k hk
    rw [h.root] at hk
    cases hk
  · intro op width k _ hk
    rw [h.root] at hk
    cases hk

section Lists
variable {n : Nat} {nested : AtLevel} {P : List Token → List Expr → Prop} [Listable P]
variable (hp : ∀ s, s.rest.length < n → Meets (nested 0) s fun ts e _ => P ts [e])
variable {s : State} {t : Token} {us : List Token}
include hp

theorem arguments_meets (hs : s.rest.length < n) :
    Meets (arguments nested) s fun ts args _ => ∃ us closing, ts = us ++ [closing] ∧
      closing.kind = .symbol .rightParen ∧ P us args := by
  refine Meets.withAngled (Meets.bind (Meets.acceptAnywhere (fun c vs _ hc => ?_) fun _ => ?_))
  · exact Meets.pure ⟨[], c, rfl, hc, Listable.nothing⟩
  · refine (Meets.commaList (s := { s with angled := false }) hp hs).andThen fun ts es _ _ h => ?_
    refine Meets.bind (Meets.require fun c vs _ hc => Meets.pure ?_)
    exact ⟨ts, c, by simp, hc, (listed_of_separated h).1⟩

theorem oneOrTwo_meets (hs : s.rest.length < n) :
    Meets (oneOrTwo nested) s fun ts es _ => P ts (es.1 :: es.2.toList) := by
  refine (hp s hs).andThen fun ts e s₁ h₁ he => ?_
  refine (Meets.afterComma hp (Nat.lt_of_le_of_lt h₁.length_le hs)).andThen
    fun us r _ _ hr => Meets.pure ?_
  cases hr with
  | absent => simpa using he
  | present hc h => simpa using Listable.comma he (by simp) hc h

theorem enclosed_meets {closing : Symbol} (hs : s.rest.length < n) :
    Meets (enclosed nested closing) s fun ts es _ => ∃ us c, ts = us ++ [c] ∧
      c.kind = .symbol closing ∧ P us (es.1 :: es.2.toList) := by
  refine Meets.withAngled ((oneOrTwo_meets (s := { s with angled := false }) hp hs).andThen
    fun ts es _ _ h => ?_)
  refine Meets.bind (Meets.require fun c vs _ hc => Meets.pure ?_)
  exact ⟨ts, c, by simp, hc, h⟩

theorem subscripts_meets (hs : s.rest.length < n) :
    Meets (subscripts nested) s fun ts es _ =>
      P ts (es.1 :: (es.2.1.toList ++ es.2.2.toList)) ∧ (es.2.1 = none → es.2.2 = none) := by
  refine (hp s hs).andThen fun ts e s₁ h₁ he => ?_
  have hs₁ := Nat.lt_of_le_of_lt h₁.length_le hs
  refine Meets.bind (Meets.accept (fun c vs hr hc => ?_) fun _ => Meets.pure (by simpa using he))
  have hlt : (s₁.past c vs).rest.length < n := by
    rw [hr] at hs₁
    exact Nat.lt_of_succ_lt hs₁
  refine (hp _ hlt).andThen fun us v s₂ h₂ hv => ?_
  refine (Meets.afterComma hp (Nat.lt_of_le_of_lt h₂.length_le hlt)).andThen
    fun ws r _ _ hr => Meets.pure ⟨?_, by simp⟩
  have h₁₂ := Listable.comma he (by simp) hc hv
  cases hr with
  | absent => simpa using h₁₂
  | present hc' h => simpa using Listable.comma h₁₂ (by simp) hc' h

/-- A reference that closes is a list of subscripts between angle brackets. -/
theorem angleSubscripts_yields (hr : s.rest = t :: us) (ht : t.kind = .symbol .less)
    (hs : us.length < n) : Yields (angleSubscripts nested) s fun ts es _ =>
      ∃ opening vs closing, ts = opening :: (vs ++ [closing]) ∧ opening.kind = .symbol .less ∧
        closing.kind = .symbol .greater ∧
        P vs (es.1 :: (es.2.1.toList ++ es.2.2.toList)) ∧ (es.2.1 = none → es.2.2 = none) := by
  refine Yields.bind (Meets.yields (Meets.skipOne hr ?_))
  refine Yields.bind (Meets.yields (Meets.withAngled
    ((subscripts_meets (s := { s.past t us with angled := true }) hp hs).mono ?_)))
  intro vs es s₁ _ h
  refine Yields.bind (Meets.yields (Meets.accept (fun c ws _ hc => ?_) fun _ => ?_))
  · refine Yields.look (Yields.ite (fun _ => .fail) fun _ => Meets.yields (Meets.pure ?_))
    exact ⟨t, vs, c, by simp, ht, hc, h⟩
  · exact .fail

end Lists

section Nested
variable {n : Nat} {nested : AtLevel}
variable (hn : ∀ level s, s.rest.length < n → Meets (nested level) s (Climbed level))
variable {s : State} {t : Token} {us : List Token}
include hn

theorem nested_listed (s : State) (hs : s.rest.length < n) :
    Meets (nested 0) s fun ts e _ => Listed ts [e] :=
  (hn 0 s hs).mono fun _ _ _ _ h => h.listed

theorem named_meets (hr : s.rest = t :: us) (ht : t.kind.isWord = true)
    (hname : attachment us ≠ .call → t.kind.isName = true) (hs : s.rest.length ≤ n) :
    Meets (named nested) s fun ts e _ => Whole ts e := by
  have hlt : (s.past t us).rest.length < n := by
    rw [hr] at hs
    exact hs
  have alone (h : t.kind.isName = true) : Whole [t] (.name t.text t.span) :=
    ⟨.name h, by simp [Expr.Ranked, Expr.nodes, Expr.Fits], rfl⟩
  have hopen := opening_of_attachment us
  refine Meets.bind (Meets.next hr (Meets.look ?_))
  rw [show (s.past t us).rest = us from rfl]
  cases ha : attachment us with
  | none => exact Meets.pure (alone (hname (by simp [ha])))
  | call =>
    rw [ha] at hopen
    obtain ⟨opening, vs, rfl, ho⟩ := hopen
    have hvs : vs.length < n := Nat.lt_of_succ_lt hlt
    refine Meets.bind (Meets.skipOne rfl ?_)
    refine (arguments_meets (s := (s.past t _).past opening vs) (nested_listed hn) hvs).andThen
      fun ts args _ _ hargs => ?_
    obtain ⟨ws, c, hw, hc, h⟩ := hargs
    refine Meets.look (Meets.pure ⟨?_, Expr.ranked_call.mpr h.2, rfl⟩)
    subst hw
    simpa using .call ht ho h.1 hc
  | dynamic =>
    rw [ha] at hopen
    obtain ⟨opening, vs, rfl, ho⟩ := hopen
    have hvs : vs.length < n := Nat.lt_of_succ_lt hlt
    have hy := angleSubscripts_yields (s := s.past t (opening :: vs)) (nested_listed hn) rfl ho hvs
    have ht' := hname (by simp [ha])
    refine Meets.bind (Meets.attempt ?_ (Meets.pure (alone ht')))
    intro es s₁ hes
    obtain ⟨ts, h₁, hf, o, ws, c, rfl, ho', hc, h, hsub⟩ := hy es s₁ hes
    refine ⟨_, h₁, hf, Meets.look (Meets.pure ⟨?_, Expr.ranked_dynamic.mpr h.2, rfl⟩)⟩
    simpa using .dynamic ht' ho' h.1 hsub hc
  | substring =>
    rw [ha] at hopen
    obtain ⟨opening, vs, rfl, ho⟩ := hopen
    have hvs : vs.length < n := Nat.lt_of_succ_lt hlt
    refine Meets.bind (Meets.skipOne rfl ?_)
    refine (enclosed_meets (s := (s.past t _).past opening vs) (nested_listed hn) hvs).andThen
      fun ts es _ _ hes => ?_
    obtain ⟨ws, c, hw, hc, h⟩ := hes
    refine Meets.look (Meets.pure ⟨?_, Expr.ranked_substring.mpr h.2, rfl⟩)
    subst hw
    simpa using .substring (hname (by simp [ha])) ho h.1 hc

theorem cursor_meets (hr : s.rest = t :: us) (ht : t.kind = .symbol .atSign)
    (hs : s.rest.length ≤ n) : Meets (cursor nested) s fun ts e _ => Whole ts e := by
  have hlt : (s.past t us).rest.length < n := by
    rw [hr] at hs
    exact hs
  refine Meets.bind (Meets.next hr (Meets.bind (Meets.require fun opening vs hv ho => ?_)))
  have hlt' : ((s.past t us).past opening vs).rest.length < n := by
    rw [hv] at hlt
    exact Nat.lt_of_succ_lt hlt
  refine (enclosed_meets (nested_listed hn) hlt').andThen fun ts es _ _ ⟨ws, c, hw, hc, h⟩ => ?_
  refine Meets.look (Meets.pure ⟨?_, Expr.ranked_cursor.mpr h.2, rfl⟩)
  subst hw
  simpa using .cursor ht ho h.1 hc

theorem parenthesized_meets (hr : s.rest = t :: us) (ht : t.kind = .symbol .leftParen)
    (hs : s.rest.length ≤ n) : Meets (parenthesized nested) s fun ts e _ => Whole ts e := by
  have hlt : (s.past t us).rest.length < n := by
    rw [hr] at hs
    exact hs
  refine Meets.bind (Meets.next hr (Meets.bind (Meets.withAngled ?_)))
  refine (hn 0 { s.past t us with angled := false } hlt).andThen fun ts e _ _ h => ?_
  refine Meets.bind (Meets.require fun c vs _ hc => Meets.pure (Meets.look (Meets.pure ?_)))
  refine ⟨?_, Expr.ranked_paren.mpr h.ranked, rfl⟩
  simpa using .paren ht h.spells hc

theorem primary_meets (hs : s.rest.length ≤ n) :
    Meets (primary nested) s fun ts e _ => Whole ts e := by
  refine Meets.look ?_
  cases hr : s.rest with
  | nil => exact Meets.expected
  | cons t us =>
    refine Meets.ite (fun _ => Meets.expected) fun _ => ?_
    cases hk : t.kind with
    | number =>
      exact Meets.bind (Meets.skipOne hr (Meets.pure
        ⟨.number hk, by simp [Expr.Ranked, Expr.nodes, Expr.Fits], rfl⟩))
    | string q =>
      exact Meets.bind (Meets.skipOne hr (Meets.pure
        ⟨.string hk, by simp [Expr.Ranked, Expr.nodes, Expr.Fits], rfl⟩))
    | systemName =>
      exact Meets.bind (Meets.skipOne hr (Meets.pure
        ⟨.system hk, by simp [Expr.Ranked, Expr.nodes, Expr.Fits], rfl⟩))
    | identifier => exact named_meets hn hr (by rw [hk]; rfl) (fun _ => by rw [hk]; rfl) hs
    | keyword k =>
      refine Meets.ite (fun hname => ?_) fun _ => Meets.reportFail
      refine named_meets hn hr (by rw [hk]; rfl) (fun hcall => ?_) hs
      simp only [Bool.or_eq_true, Bool.and_eq_true] at hname
      obtain hsoft | ⟨_, hparen⟩ := hname
      · rw [hk]
        exact hsoft
      · exact absurd (attachment_of_isBeforeParen hparen) hcall
    | symbol y =>
      cases y with
      | atSign => exact cursor_meets hn hr hk hs
      | leftParen => exact parenthesized_meets hn hr hk hs
      | _ => exact Meets.reportFail

theorem operand_meets (hs : s.rest.length ≤ n) :
    Meets (operand nested) s fun ts e _ => Whole ts e := by
  refine Meets.look ?_
  split
  next op hop =>
    obtain ⟨k, hk, hop⟩ := Option.bind_eq_some_iff.mp hop
    obtain ⟨t, us, hr, rfl⟩ : ∃ t us, s.rest = t :: us ∧ t.kind = k := by
      cases hr : s.rest with
      | nil => simp [State.kind?, hr] at hk
      | cons t us => exact ⟨t, us, rfl, by simpa [State.kind?, hr] using hk⟩
    have hlt : (s.past t us).rest.length < n := by
      rw [hr] at hs
      exact hs
    refine Meets.bind (Meets.next hr ((hn _ _ hlt).andThen fun ts e _ _ h => Meets.pure ?_))
    exact ⟨by simpa using .unary hop h.spells, Expr.ranked_unary.mpr ⟨h.whole, h.ranked⟩, rfl⟩
  next => exact primary_meets hn hs

theorem chain_meets {level : Nat} {e : Expr} {ts : List Token} (hs : s.rest.length ≤ n)
    (h : Chained level ts e s) :
    Meets (chain nested level e) s fun us e' s' => Climbed level (ts ++ us) e' s' := by
  refine Meets.loop (I := Chained level) (Q := Climbed level) ?_ (Nat.lt_succ_of_le hs) h
  intro ts e s hs h
  refine Meets.look ?_
  cases hop : infixAt? s.angled s.rest with
  | none =>
    refine Meets.pure ⟨by simpa using h.spells, h.ranked, h.above, ?_⟩
    intro op width hw
    rw [hop] at hw
    cases hw
  | some found =>
    obtain ⟨op, width⟩ := found
    refine Meets.ite (fun hle => ?_) fun hgt => ?_
    · refine Meets.pure ⟨by simpa using h.spells, h.ranked, h.above, ?_⟩
      intro op' width' hw
      rw [hop] at hw
      cases hw
      exact hle
    · obtain ⟨us, vs, hr, rfl, hspell⟩ := spelling_of_binaryAt? (binaryAt?_of_infixAt? hop)
      have hne : us ≠ [] := by
        rintro rfl
        cases hspell
      refine Meets.bind (Meets.skipAll hr fun s₁ h₁ => ?_)
      have hlt : s₁.rest.length < n := Nat.lt_of_lt_of_le (h₁.length_lt hne) (Nat.le_of_lt_succ hs)
      refine (hn _ s₁ hlt).andThen fun rs right s₂ _ hright => Meets.pure ⟨by simp [hne], ?_⟩
      refine ⟨by simpa using .binary h.spells hspell hright.spells, ?_, ?_, ?_⟩
      · refine Expr.ranked_binary.mpr ⟨⟨?_, ?_⟩, h.ranked, hright.ranked⟩
        · exact fun k hk => h.fits op us.length k hop hk
        · exact fun k hk => fits_right (hright.above k hk)
      · intro k hk
        cases hk
        exact Nat.lt_of_not_le hgt
      · intro op' width k hw hk
        cases hk
        exact fits_left (hright.stops op' width hw)

theorem expressionStep_meets (level : Nat) (hs : s.rest.length ≤ n) :
    Meets (expressionStep nested level) s (Climbed level) := by
  refine (operand_meets hn hs).andThen fun ts e s₁ h₁ h => ?_
  exact chain_meets hn (Nat.le_trans h₁.length_le hs) h.chained

end Nested

theorem expressionAt_meets (level : Nat) (s : State) :
    Meets (expressionAt level) s (Climbed level) :=
  Meets.knot (fun _ _ hn i _ hs => expressionStep_meets hn i hs) level s

/-- Precedence climbing, for every list of tokens and every state: the tokens consumed are
the yield of the tree, operands bind tightly enough at every node, and no infix operator
is left at the cursor. -/
theorem expression_precedence {s s' : State} {e : Expr} (h : expression.run s = (some e, s')) :
    (∃ ts, s.rest = ts ++ s'.rest ∧ Spells ts [e]) ∧ (∀ x ∈ e.nodes, x.Fits) ∧
      infixAt? s'.angled s'.rest = none := by
  obtain ⟨ts, ht, _, hc⟩ := (expressionAt_meets 0 s).yields e s' h
  refine ⟨⟨ts, ht.rest, hc.spells⟩, hc.ranked, ?_⟩
  cases hop : infixAt? s'.angled s'.rest with
  | none => rfl
  | some found =>
    have hle := hc.stops found.1 found.2 hop
    exact absurd hle (Nat.not_le_of_lt (level_pos found.1))

/-- The tokens of `A - 7 - -A ^ 7 * A` on one line. -/
def differenceTokens : List Token :=
  let a : Token := ⟨.identifier, ⟨0, 1⟩, "A", .origin, true, false⟩
  let seven : Token := ⟨.number, ⟨2, 3⟩, "7", .origin, true, false⟩
  let mark (y : Symbol) : Token := ⟨.symbol y, ⟨1, 2⟩, y.quoted, .origin, true, false⟩
  [a, mark .minus, seven, mark .minus, mark .minus, a, mark .caret, seven, mark .star, a]

/-- Subtraction groups to the left, the sign binds tighter than the power, and that tighter
than the product. -/
theorem expression_precedence_difference : ∃ l r x s',
    expression.run (.start differenceTokens []) = (some (.binary l .sub r x), s') ∧
    (∃ ts, differenceTokens = ts ++ s'.rest ∧ Spells ts [.binary l .sub r x]) ∧
    (∀ y ∈ (Expr.binary l .sub r x).nodes, y.Fits) ∧ infixAt? s'.angled s'.rest = none := by
  obtain ⟨l, r, x, s', h⟩ : ∃ l r x s',
      expression.run (.start differenceTokens []) = (some (.binary l .sub r x), s') :=
    ⟨_, _, _, _, by cbv⟩
  exact ⟨l, r, x, s', h, expression_precedence h⟩

end PickSyntax.Grammar
