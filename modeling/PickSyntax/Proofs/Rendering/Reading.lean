import PickSyntax.Proofs.Parser.Progress
import PickSyntax.Proofs.Parser.Success
import PickSyntax.Proofs.Rendering.Expression
import PickSyntax.Proofs.Tree.Relocate

/-!
# Written expressions are read

Tokens whose words write an expression are read as that expression, up to byte ranges. The
statement that goes through the induction (`Reads`) is about every level below the operator at
the root and every continuation that leaves the expression whole. It does not say that the
parser stops: it has come as far as the chain of operators behind the expression, which is what
an operator further out needs of its left operand.

Lists between brackets follow the commas from the left, as the parser does, whereas they are
written from the right; `Commas.uncons` turns one order into the other.
-/
namespace PickSyntax

/-- The tree without its byte ranges. -/
def Expr.plain (e : Expr) : Expr := e.relocate fun _ => 0

namespace Expr
variable (left right operand inner : Expr) (op : BinaryOp) (sign : UnaryOp) (range : Span)
variable (word : String) (quote : Quote) (args : List Expr) (second third : Option Expr)

@[simp] theorem plain_binary : (binary left op right range).plain =
    .binary left.plain op right.plain (.point 0) := rfl

@[simp] theorem plain_unary : (unary sign operand range).plain = .unary sign operand.plain (.point 0) := rfl

@[simp] theorem plain_name : (name word range).plain = .name word (.point 0) := rfl

@[simp] theorem plain_number : (number word range).plain = .number word (.point 0) := rfl

@[simp] theorem plain_string : (string word quote range).plain = .string word quote (.point 0) := rfl

@[simp] theorem plain_system : (system word range).plain = .system word (.point 0) := rfl

@[simp] theorem plain_paren : (paren inner range).plain = .paren inner.plain (.point 0) := rfl

@[simp] theorem plain_call : (call word args range).plain = .call word (args.map plain) (.point 0) := by
  rw [plain, relocate, relocateAll_eq_map]
  rfl

@[simp] theorem plain_dynamic : (dynamic word inner second third range).plain =
    .dynamic word inner.plain (second.map plain) (third.map plain) (.point 0) := by
  rw [plain, relocate, relocate?_eq_map, relocate?_eq_map]
  rfl

@[simp] theorem plain_substring : (substring word inner second range).plain =
    .substring word inner.plain (second.map plain) (.point 0) := by
  rw [plain, relocate, relocate?_eq_map]
  rfl

@[simp] theorem plain_cursor : (cursor inner second range).plain =
    .cursor inner.plain (second.map plain) (.point 0) := by
  rw [plain, relocate, relocate?_eq_map]
  rfl

end Expr

/-- Values with a comma word between each two of them. -/
inductive Commas {α : Type} (P : List Word → α → Prop) : List Word → List α → Prop
  | one {ws : List Word} {v : α} : P ws v → Commas P ws [v]
  | more {ws us : List Word} {c : Word} {vs : List α} {v : α} : Commas P ws vs →
      c.kind = .symbol .comma → P us v → Commas P (ws ++ c :: us) (vs ++ [v])

namespace Commas
variable {α : Type} {P : List Word → α → Prop} {ws : List Word} {vs : List α} {u v : α}

theorem ne_nil (h : Commas P ws vs) : vs ≠ [] := by
  cases h <;> simp

/-- The first value, and the comma after it if there are more. -/
theorem uncons (h : Commas P ws (v :: vs)) : vs = [] ∧ P ws v ∨ ∃ us c xs, ws = us ++ c :: xs ∧
    P us v ∧ c.kind = .symbol .comma ∧ Commas P xs vs := by
  generalize hall : v :: vs = all at h
  induction h generalizing v vs with
  | one h =>
    cases hall
    exact .inl ⟨rfl, h⟩
  | @more ws us c vs' v' hvs hc hv ih =>
    obtain ⟨u, us', rfl⟩ := List.exists_cons_of_ne_nil hvs.ne_nil
    rw [List.cons_append, List.cons.injEq] at hall
    obtain ⟨rfl, rfl⟩ := hall
    obtain ⟨rfl, hu⟩ | ⟨as, d, xs, rfl, hu, hd, hxs⟩ := ih rfl
    · exact .inr ⟨ws, c, us, rfl, hu, hc, .one hv⟩
    · exact .inr ⟨as, d, xs ++ c :: us, by simp, hu, hd, .more hxs hc hv⟩

theorem single (h : Commas P ws [v]) : P ws v := by
  obtain ⟨-, h⟩ | ⟨_, _, _, -, -, -, h⟩ := h.uncons
  · exact h
  · exact absurd rfl h.ne_nil

/-- What an optional value after a comma takes. -/
inductive Optional (P : List Word → α → Prop) : List Word → Option α → Prop
  | absent : Optional P [] none
  | present {c : Word} {us : List Word} {v : α} : c.kind = .symbol .comma → P us v →
      Optional P (c :: us) (some v)

theorem optional {second : Option α} (h : Commas P ws (u :: second.toList)) :
    ∃ us xs, ws = us ++ xs ∧ P us u ∧ Optional P xs second := by
  obtain ⟨hs, hu⟩ | ⟨us, c, xs, rfl, hu, hc, hs⟩ := h.uncons
  · rw [Option.toList_eq_nil_iff] at hs
    subst hs
    exact ⟨ws, [], by simp, hu, .absent⟩
  · cases second with
    | none => exact absurd rfl hs.ne_nil
    | some v => exact ⟨us, c :: xs, rfl, hu, .present hc hs.single⟩

end Commas

namespace Grammar

open PickSyntax.Parser

/-- What comes next is neither attached to the name before it nor an operand of its own. -/
structure Detached (rest : List Token) : Prop where
  attached : attachment rest = .none
  operand : ∀ t ∈ rest.head?, t.lineStart = true ∨ t.kind.beginsOperand = false

theorem Detached.operandNext {s : State} {rest : List Token} (h : Detached rest)
    (hr : s.rest = rest) : s.operandNext = false := by
  cases rest with
  | nil => simp [State.operandNext, hr]
  | cons t us =>
    rcases h.operand t (by simp) with hl | hk
    · simp [State.operandNext, hr, hl]
    · simp [State.operandNext, hr, hk]

/-- No expression goes on here. -/
structure Ends (angled : Bool) (rest : List Token) : Prop where
  detached : Detached rest
  infixAt : infixAt? angled rest = none

/-- The infix operator that comes next, if any, leaves the operator of the tree on its left. -/
def Yielding (e : Expr) (angled : Bool) (rest : List Token) : Prop :=
  ∀ k op width, e.infixLevel? = some k → infixAt? angled rest = some (op, width) →
    op.level ≤ k ∧ (op = .pow → op.level < k)

/-- Tokens of these words are read as the expression, at every level below its operator. The
chain of operators then goes on from there. -/
def Reads (ws : List Word) (e : Expr) : Prop :=
  ∀ (ts rest : List Token) (level : Nat) (s : State), ts.map Token.word = ws →
    s.rest = ts ++ rest → Detached rest → (∀ k, e.infixLevel? = some k → level < k) →
    Yielding e s.angled rest → ∃ v s', (expressionAt level).run s = (chain expressionAt level v).run s' ∧
      s.Took ts s' ∧ s'.faults = s.faults ∧ v.plain = e.plain

section Chain
variable {s s' : State} {level width : Nat} {left right : Expr} {op : BinaryOp}

theorem chain_stops (h : Stops level s) : (chain expressionAt level left).run s = (some left, s) := by
  have hstep : (chainStep expressionAt level left).run s = (some (.done left), s) := by
    rw [chainStep, run_bind, run_look]
    dsimp only
    cases hop : infixAt? s.angled s.rest with
    | none => rfl
    | some found =>
      simp only [if_pos (h found.1 found.2 hop)]
      rfl
  rw [chain, loop_run, hstep]

theorem chain_goes (hop : infixAt? s.angled s.rest = some (op, width)) (hlevel : level < op.level)
    (hright : (expressionAt op.rightLevel).run (s.drop width) = (some right, s')) :
    (chain expressionAt level left).run s = (chain expressionAt level
      (.binary left op right (left.span.merge right.span))).run s' := by
  have hstep : (chainStep expressionAt level left).run s =
      (some (.more (.binary left op right (left.span.merge right.span))), s') := by
    rw [chainStep, run_bind, run_look]
    simp only [hop, if_neg (Nat.not_le_of_lt hlevel)]
    rw [run_bind_some (show (skip width).run s = (some (), s.drop width) from rfl),
      run_bind_some hright]
    rfl
  rw [chain, loop_eq (chainStep_advances expressionAt level), run_bind_some hstep]
  rfl

end Chain

section Next
variable {ts us rest : List Token} {t v : Token} {angled : Bool} {op : BinaryOp} {ws : List Word}

theorem binaryOfSymbol?_angled {y : Symbol} {z : Option Symbol} {found : BinaryOp × Nat}
    (h : binaryOfSymbol? true y z = some found) : binaryOfSymbol? angled y z = some found := by
  unfold binaryOfSymbol? at h ⊢
  split at h <;> simp_all

/-- A written operator is found where an operand follows. -/
theorem infixAt?_written (h : op.Written ws) (hts : ts.map Token.word = ws)
    (hl : ∀ t ∈ ts, t.lineStart = false) (hv : v.spaced = true) (hvl : v.lineStart = false)
    (hb : v.kind.beginsExpression = true) :
    infixAt? angled (ts ++ v :: rest) = some (op, ts.length) := by
  have hbinary : binaryAt? angled (ts ++ v :: rest) = some (op, ts.length) := by
    cases h with
    | word hk hop =>
      obtain ⟨t, rfl, rfl⟩ := List.map_eq_singleton_iff.mp hts
      have hk : t.kind = _ := hk
      simp [binaryAt?, hl t (by simp), hk, hop]
    | mark hy hop =>
      obtain ⟨t, rfl, rfl⟩ := List.map_eq_singleton_iff.mp hts
      have hy : t.kind = _ := hy
      simp [binaryAt?, symbolBeside?, hl t (by simp), hy, hv, binaryOfSymbol?_angled hop]
    | marks hy hz hop hs hs' =>
      obtain ⟨t, us, rfl, rfl, hus⟩ := List.map_eq_cons_iff.mp hts
      obtain ⟨u, rfl, rfl⟩ := List.map_eq_singleton_iff.mp hus
      have hy : t.kind = _ := hy
      have hz : u.kind = _ := hz
      have hs' : u.spaced = false := hs'
      simp [binaryAt?, symbolBeside?, hl t (by simp), hy, hz, hs', binaryOfSymbol?_angled hop]
  simp [infixAt?, hbinary, hvl, hb]

theorem detached_of_kind (hk : ∀ y, t.kind = .symbol y → y ≠ .leftParen ∧ y ≠ .leftBracket ∧
    (y = .less → t.spaced = true)) (ho : t.kind.beginsOperand = false) : Detached (t :: rest) := by
  refine ⟨?_, by simp [ho]⟩
  cases hkind : t.kind with
  | symbol y =>
    obtain ⟨hparen, hbracket, hless⟩ := hk y hkind
    by_cases hy : y = .less
    · simp [attachment, hkind, hy, hless hy]
    · simp [attachment, hkind, hparen, hbracket, hy]
  | _ => simp [attachment, hkind]

/-- The symbol of an operator is no bracket and begins no operand. -/
theorem detached_operator {y : Symbol} {z : Option Symbol} {found : BinaryOp × Nat}
    (hop : binaryOfSymbol? true y z = some found) (hk : t.kind = .symbol y) (hs : t.spaced = true) :
    Detached (t :: rest) := by
  have hy : y ≠ .leftParen ∧ y ≠ .leftBracket ∧ (TokenKind.symbol y).beginsOperand = false := by
    unfold binaryOfSymbol? at hop
    split at hop <;> first | exact ⟨by simp, by simp, rfl⟩ | cases hop
  refine detached_of_kind (fun x hx => ?_) (by rw [hk]; exact hy.2.2)
  rw [hk] at hx
  cases hx
  exact ⟨hy.1, hy.2.1, fun _ => hs⟩

theorem detached_written (h : op.Written ws) (hts : ts.map Token.word = ws) :
    Detached (ts ++ rest) := by
  cases h with
  | word hk hop =>
    obtain ⟨t, rfl, rfl⟩ := List.map_eq_singleton_iff.mp hts
    have hk : t.kind = _ := hk
    exact detached_of_kind (by simp [hk]) (by simp [hk, TokenKind.beginsOperand])
  | mark hy hop hs =>
    obtain ⟨t, rfl, rfl⟩ := List.map_eq_singleton_iff.mp hts
    exact detached_operator hop hy hs
  | marks hy hz hop hs =>
    obtain ⟨t, us, rfl, rfl, hus⟩ := List.map_eq_cons_iff.mp hts
    exact detached_operator hop hy hs

theorem ends_nil : Ends angled [] :=
  ⟨⟨rfl, by simp⟩, rfl⟩

/-- A comma or a closing bracket ends an expression; a lone `>` does so inside a reference. -/
theorem ends_symbol {y : Symbol} (hk : t.kind = .symbol y) (hy : y = .comma ∨ y = .rightParen ∨
    y = .rightBracket ∨ y = .greater ∧ angled = true) : Ends angled (t :: rest) := by
  have hop (z : Option Symbol) : binaryOfSymbol? angled y z = none := by
    rcases hy with rfl | rfl | rfl | ⟨rfl, rfl⟩ <;> cases z with
    | none => rfl
    | some z => cases z <;> rfl
  refine ⟨detached_of_kind ?_ ?_, ?_⟩
  · rw [hk]
    rintro _ h
    cases h
    rcases hy with rfl | rfl | rfl | ⟨rfl, -⟩ <;> simp
  · rw [hk]
    rcases hy with rfl | rfl | rfl | ⟨rfl, -⟩ <;> rfl
  · simp only [infixAt?, binaryAt?, hk, hop]
    cases t.lineStart <;> rfl

/-- A keyword that spells no operator ends an expression. -/
theorem ends_keyword {k : Keyword} (hk : t.kind = .keyword k) (hop : binaryOfKeyword? k = none) :
    Ends angled (t :: rest) := by
  refine ⟨detached_of_kind (by simp [hk]) (by simp [hk, TokenKind.beginsOperand]), ?_⟩
  simp only [infixAt?, binaryAt?, hk, hop]
  cases t.lineStart <;> rfl

/-- A word that begins a line ends an expression. -/
theorem ends_line (hl : t.lineStart = true) (hk : ∀ y, t.kind ≠ .symbol y) :
    Ends angled (t :: rest) := by
  refine ⟨⟨?_, by simp [hl]⟩, by simp [infixAt?, binaryAt?, hl]⟩
  simp [attachment, hk]

end Next

section Lists
variable {s : State} {ts rest : List Token} {ws : List Word} {e : Expr} {es : List Expr}
variable {level : Nat}

theorem Reads.at_level (h : Reads ws e) (hts : ts.map Token.word = ws) (hr : s.rest = ts ++ rest)
    (hd : Detached rest) (hlevel : ∀ k, e.infixLevel? = some k → level < k)
    (hy : Yielding e s.angled rest)
    (hstop : ∀ op width, infixAt? s.angled rest = some (op, width) → op.level ≤ level) :
    Gives (expressionAt level) s ts (·.plain = e.plain) := by
  obtain ⟨v, s', hrun, ht, hf, hv⟩ := h ts rest level s hts hr hd hlevel hy
  refine ⟨v, s', hrun.trans (chain_stops ?_), ht, hf, hv⟩
  intro op width hop
  rw [ht.angled, ht.rest_eq hr] at hop
  exact hstop op width hop

theorem Reads.gives (h : Reads ws e) (hts : ts.map Token.word = ws) (hr : s.rest = ts ++ rest)
    (he : Ends s.angled rest) : Gives expression s ts (·.plain = e.plain) := by
  refine h.at_level hts hr he.detached (fun k hk => ?_) ?_ ?_
  · cases e with
    | binary _ op =>
      cases hk
      exact level_pos op
    | _ => cases hk
  · intro k op width _ hop
    rw [he.infixAt] at hop
    cases hop
  · intro op width hop
    rw [he.infixAt] at hop
    cases hop

/-- A list is read up to the comma that would go on with it. -/
theorem commaList_reads (h : Commas Reads ws es) (hts : ts.map Token.word = ws)
    (hl : ∀ t ∈ ts, t.lineStart = false) (hr : s.rest = ts ++ rest) (he : Ends s.angled rest) :
    ∃ vs s', (commaList expression).run s = (loop (commaStep expression) vs).run s' ∧
      s.Took ts s' ∧ s'.faults = s.faults ∧ vs.map Expr.plain = es.map Expr.plain := by
  induction h generalizing ts rest with
  | one h =>
    obtain ⟨v, s', hrun, ht, hf, hv⟩ := h.gives hts hr he
    exact ⟨[v], s', run_bind_some hrun _, ht, hf, by simpa using hv⟩
  | more _ hc hx ih =>
    obtain ⟨us, cs, rfl, hus, hcs⟩ := List.map_eq_append_iff.mp hts
    obtain ⟨c, xs, rfl, rfl, hxs⟩ := List.map_eq_cons_iff.mp hcs
    rw [List.append_assoc, List.cons_append] at hr
    obtain ⟨vs, s₁, hrun, ht, hf, hvs⟩ := ih hus (fun t ht => hl t (by simp [ht])) hr (ends_symbol hc (by simp))
    have hr₁ := ht.rest_eq hr
    obtain ⟨-, s₂, hcomma, htc, hfc, rfl⟩ := Gives.accept hr₁ hc (hl c (by simp))
    have hr₂ := htc.rest_eq hr₁
    have he₂ : Ends s₂.angled rest := by rwa [htc.angled, ht.angled]
    obtain ⟨v, s₃, hv, htv, hfv, hplain⟩ := hx.gives hxs hr₂ he₂
    refine ⟨vs ++ [v], s₃, ?_, ?_, ?_, by simp [hvs, hplain]⟩
    · have hstep : (commaStep expression vs).run s₁ = (some (.more (vs ++ [v])), s₃) := by
        rw [commaStep, acceptSymbol, run_bind_some hcomma]
        exact run_bind_some hv _
      rw [hrun, loop_eq (commaStep_advances expression), run_bind_some hstep]
    · simpa using ht.trans (htc.trans htv)
    · rw [hfv, hfc, hf]

/-- No comma comes next. -/
def CommaFree (rest : List Token) : Prop := ∀ t ∈ rest.head?, t.kind ≠ .symbol .comma

theorem CommaFree.reject (h : CommaFree rest) (hr : s.rest = rest) :
    s.isAtOnLine (.symbol .comma) = false := by
  refine Bool.eq_false_iff.mpr fun hat => ?_
  obtain ⟨t, us, ht, hk, -⟩ := State.rest_of_isAtOnLine hat
  rw [hr] at ht
  exact h t (by simp [ht]) hk

theorem commaList_gives (h : Commas Reads ws es) (hts : ts.map Token.word = ws)
    (hl : ∀ t ∈ ts, t.lineStart = false) (hr : s.rest = ts ++ rest) (he : Ends s.angled rest)
    (hc : CommaFree rest) :
    Gives (commaList expression) s ts fun vs => vs.map Expr.plain = es.map Expr.plain := by
  obtain ⟨vs, s', hrun, ht, hf, hvs⟩ := commaList_reads h hts hl hr he
  refine ⟨vs, s', hrun.trans ?_, ht, hf, hvs⟩
  have hstep : (commaStep expression vs).run s' = (some (.done vs), s') := by
    rw [commaStep, acceptSymbol, run_bind_some (run_accept_false (hc.reject (ht.rest_eq hr)))]
    rfl
  rw [loop_run, hstep]

theorem afterComma_gives {second : Option Expr} (h : Commas.Optional Reads ws second)
    (hts : ts.map Token.word = ws) (hl : ∀ t ∈ ts, t.lineStart = false) (hr : s.rest = ts ++ rest)
    (he : Ends s.angled rest) (hc : CommaFree rest) :
    Gives (afterComma? expression) s ts fun v => v.map Expr.plain = second.map Expr.plain := by
  cases h with
  | absent =>
    obtain rfl := List.map_eq_nil_iff.mp hts
    exact (Gives.reject (hc.reject hr)).bind fun _ _ _ hb => by
      subst hb
      exact .pure rfl
  | present hcomma hv =>
    obtain ⟨c, xs, rfl, rfl, hxs⟩ := List.map_eq_cons_iff.mp hts
    refine (Gives.accept hr hcomma (hl c (by simp))).bind fun _ s' ht hb => ?_
    subst hb
    have he' : Ends s'.angled rest := by rwa [ht.angled]
    exact (hv.gives hxs (ht.rest_eq hr) he').map fun v hv => by simpa using hv

end Lists

section Brackets
variable {s : State} {ts rest : List Token} {ws : List Word} {t c opening : Token} {es : List Expr}
variable {fst : Expr} {second third : Option Expr}

theorem oneOrTwo_gives (h : Commas Reads ws (fst :: second.toList)) (hts : ts.map Token.word = ws)
    (hl : ∀ t ∈ ts, t.lineStart = false) (hr : s.rest = ts ++ rest) (he : Ends s.angled rest)
    (hc : CommaFree rest) : Gives (oneOrTwo expressionAt) s ts fun v =>
      v.1.plain = fst.plain ∧ v.2.map Expr.plain = second.map Expr.plain := by
  obtain ⟨us, xs, rfl, hfst, hsecond⟩ := h.optional
  obtain ⟨ts₁, ts₂, rfl, h₁, h₂⟩ := List.map_eq_append_iff.mp hts
  rw [List.append_assoc] at hr
  have he₁ : Ends s.angled (ts₂ ++ rest) := by
    cases hsecond with
    | absent =>
      obtain rfl := List.map_eq_nil_iff.mp h₂
      exact he
    | present hcomma =>
      obtain ⟨c, xs, rfl, rfl, -⟩ := List.map_eq_cons_iff.mp h₂
      exact ends_symbol hcomma (by simp)
  refine (hfst.gives h₁ hr he₁).bind fun v s' ht hv => ?_
  have he' : Ends s'.angled rest := by rwa [ht.angled]
  exact (afterComma_gives hsecond h₂ (fun t ht => hl t (by simp [ht])) (ht.rest_eq hr) he' hc).map
    fun w hw => ⟨hv, hw⟩

theorem enclosed_gives {closing : Symbol} (h : Commas Reads ws (fst :: second.toList))
    (hts : ts.map Token.word = ws) (hl : ∀ t ∈ ts, t.lineStart = false)
    (hr : s.rest = ts ++ c :: rest) (hc : c.kind = .symbol closing) (hcl : c.lineStart = false)
    (hclosing : closing = .rightParen ∨ closing = .rightBracket) :
    Gives (enclosed expressionAt closing) s (ts ++ [c]) fun v =>
      v.1.plain = fst.plain ∧ v.2.map Expr.plain = second.map Expr.plain := by
  have hends : Ends false (c :: rest) := ends_symbol hc (by grind)
  have hfree : CommaFree (c :: rest) := by
    rcases hclosing with rfl | rfl <;> simp [CommaFree, hc]
  refine Gives.withAngled ((oneOrTwo_gives h hts hl (s := { s with angled := false }) hr hends hfree).bind
    fun v s' ht hv => ?_)
  exact (Gives.require (ht.rest_eq hr) hc hcl).map fun _ _ => hv

theorem arguments_gives (h : es ≠ [] → Commas Reads ws es) (hnil : es = [] → ws = [])
    (hhead : es ≠ [] → ∃ w vs, ws = w :: vs ∧ w.kind.beginsExpression = true)
    (hts : ts.map Token.word = ws) (hl : ∀ t ∈ ts, t.lineStart = false)
    (hr : s.rest = ts ++ c :: rest) (hc : c.kind = .symbol .rightParen) (hcl : c.lineStart = false) :
    Gives (arguments expressionAt) s (ts ++ [c]) fun vs => vs.map Expr.plain = es.map Expr.plain := by
  refine Gives.withAngled ?_
  by_cases hes : es = []
  · obtain rfl := hnil hes
    obtain rfl := List.map_eq_nil_iff.mp hts
    refine (Gives.acceptAnywhere (s := { s with angled := false }) hr hc).bind_nil
      fun _ _ _ hb => ?_
    subst hb hes
    exact .pure rfl
  · obtain ⟨w, vs, hw, hbegins⟩ := hhead hes
    have hat : State.isAt { s with angled := false } (.symbol .rightParen) = false := by
      rw [hw] at hts
      obtain ⟨t, us, rfl, rfl, -⟩ := List.map_eq_cons_iff.mp hts
      refine Bool.eq_false_iff.mpr fun hat => ?_
      simp only [State.isAt, State.kind?, hr, List.cons_append, List.head?_cons, Option.map_some,
        beq_iff_eq, Option.some.injEq] at hat
      rw [Token.word_kind, hat] at hbegins
      cases hbegins
    refine (Gives.rejectAnywhere hat).bind fun _ s₁ h₁ hb => ?_
    subst hb
    have hr₁ : s₁.rest = ts ++ c :: rest := h₁.rest_eq hr
    have hends : Ends s₁.angled (c :: rest) := by
      rw [h₁.angled]
      exact ends_symbol hc (by simp)
    refine (commaList_gives (h hes) hts hl hr₁ hends (by simp [CommaFree, hc])).bind fun _ s₂ h₂ hvs => ?_
    exact (Gives.require (h₂.rest_eq hr₁) hc hcl).map fun _ _ => hvs

/-- The value and the sub-value are read as one or two expressions. -/
theorem subscripts_eq (nested : AtLevel) : subscripts nested = (do
    let attr ← nested 0
    if ← acceptSymbol .comma then
      let v ← oneOrTwo nested
      return (attr, some v.1, v.2)
    else return (attr, none, none)) := by
  simp only [subscripts, oneOrTwo, bind_assoc, pure_bind]

theorem subscripts_gives (h : Commas Reads ws (fst :: (second.toList ++ third.toList)))
    (hsecond : second = none → third = none) (hts : ts.map Token.word = ws)
    (hl : ∀ t ∈ ts, t.lineStart = false) (hr : s.rest = ts ++ rest) (he : Ends s.angled rest)
    (hfree : CommaFree rest) : Gives (subscripts expressionAt) s ts fun v => v.1.plain = fst.plain ∧
      v.2.1.map Expr.plain = second.map Expr.plain ∧ v.2.2.map Expr.plain = third.map Expr.plain := by
  rw [subscripts_eq]
  cases second with
  | none =>
    rw [hsecond rfl] at h ⊢
    refine (h.single.gives hts hr he).bind_nil fun v s₁ h₁ hv => ?_
    refine (Gives.reject (hfree.reject (h₁.rest_eq hr))).bind_nil fun b _ _ hb => ?_
    subst hb
    exact .pure ⟨hv, rfl, rfl⟩
  | some value =>
    obtain ⟨hnil, -⟩ | ⟨us, d, xs, rfl, hu, hd, hxs⟩ := h.uncons
    · cases hnil
    obtain ⟨ts₁, ds, rfl, h₁, hds⟩ := List.map_eq_append_iff.mp hts
    obtain ⟨d, ts₂, rfl, rfl, h₂⟩ := List.map_eq_cons_iff.mp hds
    rw [List.append_assoc, List.cons_append] at hr
    refine (hu.gives h₁ hr (ends_symbol hd (by simp))).bind fun v s₁ k₁ hv => ?_
    have hr₁ := k₁.rest_eq hr
    refine (Gives.accept hr₁ hd (hl d (by simp))).bind fun b s₂ k₂ hb => ?_
    subst hb
    have he₂ : Ends s₂.angled rest := by rwa [k₂.angled, k₁.angled]
    exact (oneOrTwo_gives hxs h₂ (fun t ht => hl t (by simp [ht])) (k₂.rest_eq hr₁) he₂ hfree).map
      fun w hw => ⟨hv, by simp [hw.1], hw.2⟩

theorem angleSubscripts_gives (h : Commas Reads ws (fst :: (second.toList ++ third.toList)))
    (hsecond : second = none → third = none) (hts : ts.map Token.word = ws)
    (hl : ∀ t ∈ ts, t.lineStart = false) (hr : s.rest = opening :: (ts ++ c :: rest))
    (hc : c.kind = .symbol .greater) (hcl : c.lineStart = false) (hd : Detached rest) :
    Gives (angleSubscripts expressionAt) s (opening :: (ts ++ [c])) fun v => v.1.plain = fst.plain ∧
      v.2.1.map Expr.plain = second.map Expr.plain ∧ v.2.2.map Expr.plain = third.map Expr.plain := by
  refine (Gives.skipOne hr).bind fun _ s₁ h₁ _ => ?_
  have hr₁ := h₁.rest_one hr
  have hends : Ends true (c :: rest) := ends_symbol hc (by simp)
  refine (Gives.withAngled (subscripts_gives (s := { s₁ with angled := true }) h hsecond hts hl hr₁ hends
    (by simp [CommaFree, hc]))).bind fun v s₂ h₂ hv => ?_
  have hr₂ := h₂.rest_eq hr₁
  refine (Gives.accept hr₂ hc hcl).bind_nil fun b s₃ h₃ hb => ?_
  subst hb
  refine Gives.look ?_
  simp only [hd.operandNext (h₃.rest_eq hr₂)]
  exact .pure hv

end Brackets

section Operands
variable {s : State} {ts us rest : List Token} {t c opening : Token} {e : Expr} {w : Word}
variable {ws : List Word} {Q : Expr → Prop}

/-- An operand that is not a sign is a primary. -/
theorem operand_primary (hr : s.rest = t :: us) (hu : unaryOf? t.kind = none) :
    (operand expressionAt).run s = (primary expressionAt).run s := by
  simp [operand, run_bind, State.kind?, hr, hu]

/-- A primary that begins with a name. -/
theorem primary_named (hr : s.rest = t :: us) (hl : (t.lineStart && s.begun) = false)
    (hk : t.kind.isName = true) : (primary expressionAt).run s = (named expressionAt).run s := by
  rw [primary, run_bind, run_look]
  cases hkind : t.kind with
  | keyword k =>
    rw [hkind] at hk
    simp [hr, hl, hkind, show k.isSoft = true from hk, -Bool.and_eq_true]
  | identifier => simp [hr, hl, hkind, -Bool.and_eq_true]
  | _ =>
    rw [hkind] at hk
    cases hk

theorem unaryOf?_of_isName {k : TokenKind} (h : k.isName = true) : unaryOf? k = none := by
  cases k with
  | keyword k => cases k <;> first | rfl | cases h
  | symbol y => cases h
  | _ => rfl

theorem operand_named (hr : s.rest = t :: us) (hl : t.lineStart = false)
    (hk : t.kind.isName = true) : (operand expressionAt).run s = (named expressionAt).run s :=
  (operand_primary hr (unaryOf?_of_isName hk)).trans (primary_named hr (by simp [hl]) hk)

theorem leaf_gives {value : Expr} (hr : s.rest = t :: rest) (hu : unaryOf? t.kind = none)
    (h : (primary expressionAt).run s = (skip 1 >>= fun _ => (pure value : Parser Expr)).run s)
    (hv : value.plain = e.plain) : Gives (operand expressionAt) s [t] (·.plain = e.plain) :=
  .of_run (operand_primary hr hu) (.of_run h ((Gives.skipOne hr).map fun _ _ => hv))

/-- What an operand is read as, it is read as at every level. -/
theorem reads_of_operand (h : ∀ ts rest s, ts.map Token.word = ws → s.rest = ts ++ rest →
    Detached rest → Gives (operand expressionAt) s ts (·.plain = e.plain)) : Reads ws e := by
  intro ts rest level s hts hr hd _ _
  obtain ⟨v, s', hrun, ht, hf, hv⟩ := h ts rest s hts hr hd
  refine ⟨v, s', ?_, ht, hf, hv⟩
  rw [expressionAt_eq, expressionStep, run_bind_some hrun]

theorem name_gives (hr : s.rest = t :: rest) (hd : Detached rest) :
    Gives (named expressionAt) s [t] (· = .name t.text t.span) := by
  refine (Gives.next hr).bind_nil fun v s₁ h₁ hv => ?_
  subst hv
  refine Gives.look ?_
  simp only [h₁.rest_one hr, hd.attached]
  exact .pure rfl

/-- A `<` before an expression stands by itself. -/
theorem not_isFusedLess (h : t.kind.beginsExpression = true) :
    isFusedLess (opening :: t :: rest) = false := by
  simp only [isFusedLess, List.tail_cons, symbolBeside?]
  cases t.spaced with
  | true => rfl
  | false =>
    cases hk : t.kind with
    | symbol y =>
      rw [hk] at h
      cases y <;> first | rfl | cases h
    | _ => rfl

section Attached
variable {args : List Expr} {start : Expr} {second third : Option Expr}
variable (hts : ts.map Token.word = ws) (hl : ∀ t ∈ ts, t.lineStart = false)
variable (hr : s.rest = t :: opening :: (ts ++ c :: rest)) (hcl : c.lineStart = false)
include hts hl hr hcl

theorem call_gives (h : args ≠ [] → Commas Reads ws args) (hnil : args = [] → ws = [])
    (hhead : args ≠ [] → ∃ w vs, ws = w :: vs ∧ w.kind.beginsExpression = true)
    (ho : opening.kind = .symbol .leftParen) (hos : opening.spaced = false)
    (hc : c.kind = .symbol .rightParen) : Gives (named expressionAt) s (t :: opening :: (ts ++ [c]))
      (·.plain = .call t.text (args.map Expr.plain) (.point 0)) := by
  refine (Gives.next hr).bind fun v s₁ h₁ hv => ?_
  subst hv
  have hr₁ := h₁.rest_one hr
  have hattached : attachment s₁.rest = .call := by simp [hr₁, attachment, ho, hos]
  refine Gives.look ?_
  simp only [hattached]
  refine (Gives.skipOne hr₁).bind fun _ s₂ h₂ _ => ?_
  have hr₂ := h₂.rest_one hr₁
  refine (arguments_gives h hnil hhead hts hl hr₂ hc hcl).bind_nil fun vs s₃ _ hvs => ?_
  exact Gives.look (.pure (by simp [hvs]))

theorem dynamic_gives (h : Commas Reads ws (start :: (second.toList ++ third.toList)))
    (hsecond : second = none → third = none)
    (hhead : ∃ w vs, ws = w :: vs ∧ w.kind.beginsExpression = true)
    (ho : opening.kind = .symbol .less) (hos : opening.spaced = false)
    (hc : c.kind = .symbol .greater) (hd : Detached rest) :
    Gives (named expressionAt) s (t :: opening :: (ts ++ [c])) (·.plain = .dynamic t.text start.plain
      (second.map Expr.plain) (third.map Expr.plain) (.point 0)) := by
  refine (Gives.next hr).bind fun v s₁ h₁ hv => ?_
  subst hv
  have hr₁ := h₁.rest_one hr
  have hattached : attachment s₁.rest = .dynamic := by
    obtain ⟨w, vs, rfl, hw⟩ := hhead
    obtain ⟨u, us, rfl, rfl, -⟩ := List.map_eq_cons_iff.mp hts
    have hfused : isFusedLess (opening :: u :: (us ++ c :: rest)) = false := not_isFusedLess hw
    simp [hr₁, attachment, ho, hos, hfused]
  refine Gives.look ?_
  simp only [hattached]
  refine (Gives.attempt (angleSubscripts_gives h hsecond hts hl hr₁ hc hcl hd)).bind_nil
    fun r s₃ _ hr => ?_
  obtain ⟨v, rfl, h₁, h₂, h₃⟩ := hr
  exact Gives.look (.pure (by simp [h₁, h₂, h₃]))

theorem substring_gives (h : Commas Reads ws (start :: second.toList))
    (ho : opening.kind = .symbol .leftBracket) (hol : opening.lineStart = false)
    (hc : c.kind = .symbol .rightBracket) : Gives (named expressionAt) s (t :: opening :: (ts ++ [c]))
      (·.plain = .substring t.text start.plain (second.map Expr.plain) (.point 0)) := by
  refine (Gives.next hr).bind fun v s₁ h₁ hv => ?_
  subst hv
  have hr₁ := h₁.rest_one hr
  have hattached : attachment s₁.rest = .substring := by simp [hr₁, attachment, ho, hol]
  refine Gives.look ?_
  simp only [hattached]
  refine (Gives.skipOne hr₁).bind fun _ s₂ h₂ _ => ?_
  have hr₂ := h₂.rest_one hr₁
  refine (enclosed_gives h hts hl hr₂ hc hcl (.inr rfl)).bind_nil fun v s₃ _ hv => ?_
  exact Gives.look (.pure (by simp [hv.1, hv.2]))

theorem cursor_gives (h : Commas Reads ws (start :: second.toList))
    (ho : opening.kind = .symbol .leftParen) (hol : opening.lineStart = false)
    (hc : c.kind = .symbol .rightParen) : Gives (cursor expressionAt) s (t :: opening :: (ts ++ [c]))
      (·.plain = .cursor start.plain (second.map Expr.plain) (.point 0)) := by
  refine (Gives.next hr).bind fun v s₁ h₁ hv => ?_
  subst hv
  have hr₁ := h₁.rest_one hr
  refine (Gives.require hr₁ ho hol).bind fun _ s₂ h₂ _ => ?_
  have hr₂ := h₂.rest_one hr₁
  refine (enclosed_gives h hts hl hr₂ hc hcl (.inl rfl)).bind_nil fun v s₃ _ hv => ?_
  exact Gives.look (.pure (by simp [hv.1, hv.2]))

end Attached

theorem paren_gives (h : Reads ws e) (hts : ts.map Token.word = ws)
    (hr : s.rest = opening :: (ts ++ c :: rest)) (hc : c.kind = .symbol .rightParen)
    (hcl : c.lineStart = false) : Gives (parenthesized expressionAt) s (opening :: (ts ++ [c]))
      (·.plain = .paren e.plain (.point 0)) := by
  refine (Gives.next hr).bind fun v s₁ h₁ hv => ?_
  subst hv
  have hr₁ := h₁.rest_one hr
  have hends : Ends false (c :: rest) := ends_symbol hc (by simp)
  refine (Gives.withAngled (Q := (·.plain = e.plain)) ?_).bind_nil fun v s₂ _ hv => ?_
  · refine (h.gives (s := { s₁ with angled := false }) hts hr₁ hends).bind fun v s₂ h₂ hv => ?_
    exact (Gives.require (h₂.rest_eq hr₁) hc hcl).map fun _ _ => hv
  · exact Gives.look (.pure (by simp [hv]))

end Operands

theorem unquote_quoted (q : Quote) (value : List Char) :
    unquote q (q.char :: (value ++ [q.char])) = value := by
  simp [unquote]

/-- The text of a system variable has one mark. -/
theorem systemName_text {text name : String} (h : text.toList = '@' :: name.toList)
    (ha : TokenKind.Admits .systemName text.toList) : systemName text = name := by
  rw [h] at ha
  have hdrop : name.toList.dropWhile (· == '@') = name.toList := by
    generalize name.toList = cs at ha
    cases ha with
    | @systemName c cs hc =>
      have hne : c ≠ '@' := by
        rintro rfl
        revert hc
        decide
      simp [hne]
  rw [systemName, h, List.dropWhile_cons_of_pos (by rfl), hdrop, String.ofList_toList]

theorem unary_reads {w : Word} {vs : List Word} {inner : Expr} {op : UnaryOp} {range : Span}
    (hu : unaryOf? w.kind = some op) (h : Reads vs inner) (hroot : inner.infixLevel? = none) :
    Reads (w :: vs) (.unary op inner range) := by
  refine reads_of_operand fun ts rest s hts hr hd => ?_
  obtain ⟨t, us, rfl, rfl, hus⟩ := List.map_eq_cons_iff.mp hts
  refine Gives.look ?_
  have hkind : s.kind?.bind unaryOf? = some op := by
    simp only [State.kind?, hr, List.cons_append, List.head?_cons, Option.map_some, Option.bind_some]
    exact hu
  simp only [hkind]
  refine (Gives.next hr).bind fun v s₁ h₁ hv => ?_
  subst hv
  refine (h.at_level hus (h₁.rest_one hr) hd (by simp [hroot]) ?_ ?_).map fun e he => by simp [he]
  · intro k op width hk
    rw [hroot] at hk
    cases hk
  · intro op _ _
    cases op <;> decide

/-- The operand on the right of an operator holds operators above the right level. -/
theorem rightLevel_lt_of_fits {op : BinaryOp} {k : Nat} (h : op.level ≤ k)
    (h' : op ≠ .pow → op.level < k) : op.rightLevel < k := by
  cases op <;> simp only [BinaryOp.rightLevel, BinaryOp.groupsRight, BinaryOp.level] at * <;> grind

/-- An operator that leaves another on its left is not taken by the operand on the right. -/
theorem le_rightLevel {op op' : BinaryOp} (h : op'.level ≤ op.level)
    (h' : op' = .pow → op'.level < op.level) : op'.level ≤ op.rightLevel := by
  cases op <;> cases op' <;> revert h h' <;> decide

/-- Both operands are read up to the operator that follows them. -/
theorem binary_reads {ws us vs : List Word} {left right : Expr} {op : BinaryOp} {range : Span}
    (hleft : Reads ws left) (hop : op.Written us) (hright : Reads vs right)
    (hvs : ∃ v vs', vs = v :: vs' ∧ v.kind.beginsExpression = true) (hs : ∀ v ∈ vs.head?, v.spaced = true)
    (hl : ∀ w ∈ us ++ vs, w.lineStart = false) (hfits : (Expr.binary left op right range).Fits) :
    Reads (ws ++ (us ++ vs)) (.binary left op right range) := by
  intro ts rest level s hts hr hd hlevel hy
  obtain ⟨ts₁, ts', rfl, h₁, hts'⟩ := List.map_eq_append_iff.mp hts
  obtain ⟨ts₂, ts₃, rfl, h₂, h₃⟩ := List.map_eq_append_iff.mp hts'
  simp only [List.append_assoc] at hr
  have hlt : level < op.level := hlevel op.level rfl
  have hl₂ : ∀ t ∈ ts₂, t.lineStart = false := fun t ht => hl t.word (by simp [← h₂, List.mem_map_of_mem ht])
  have hnext (angled : Bool) : infixAt? angled (ts₂ ++ (ts₃ ++ rest)) = some (op, ts₂.length) := by
    obtain ⟨v, vs', rfl, hv⟩ := hvs
    obtain ⟨t, us', rfl, rfl, -⟩ := List.map_eq_cons_iff.mp h₃
    exact infixAt?_written hop h₂ hl₂ (hs t.word (by simp)) (hl t.word (by simp)) hv
  -- the left operand, up to the operator
  obtain ⟨l, s₁, hrun₁, ht₁, hf₁, hplain₁⟩ := hleft ts₁ (ts₂ ++ (ts₃ ++ rest)) level s h₁ hr
    (detached_written hop h₂) (fun k hk => Nat.lt_of_lt_of_le hlt (hfits.1 k hk).1) (by
      intro k op' width hk hop'
      rw [hnext] at hop'
      cases hop'
      exact hfits.1 k hk)
  have hr₁ := ht₁.rest_eq hr
  obtain ⟨ht₂, hf₂⟩ := State.took_drop hr₁
  have hr₂ := ht₂.rest_eq hr₁
  -- the right operand stops where the whole does
  have hangled : (s₁.drop ts₂.length).angled = s.angled := by rw [ht₂.angled, ht₁.angled]
  obtain ⟨r, s₃, hrun₃, ht₃, hf₃, hplain₃⟩ := @Reads.at_level _ _ _ _ _ op.rightLevel hright h₃ hr₂ hd
    (fun k hk => rightLevel_lt_of_fits (hfits.2 k hk).1 (hfits.2 k hk).2) (by
      intro k op' width hk hop'
      rw [hangled] at hop'
      obtain ⟨hle, hpow⟩ := hy op.level op' width rfl hop'
      refine ⟨Nat.le_trans hle (hfits.2 k hk).1, fun h => ?_⟩
      exact Nat.lt_of_lt_of_le (hpow h) (hfits.2 k hk).1) (by
      intro op' width hop'
      rw [hangled] at hop'
      obtain ⟨hle, hpow⟩ := hy op.level op' width rfl hop'
      exact le_rightLevel hle hpow)
  have hop₁ : infixAt? s₁.angled s₁.rest = some (op, ts₂.length) := by rw [hr₁, hnext]
  refine ⟨_, s₃, hrun₁.trans (chain_goes hop₁ hlt hrun₃), ?_, ?_, ?_⟩
  · exact ht₁.trans (ht₂.trans ht₃)
  · rw [hf₃, hf₂, hf₁]
  · simp [hplain₁, hplain₃]

theorem map_bracketed {ts : List Token} {ws : List Word} {w o c : Word}
    (h : ts.map Token.word = w :: o :: (ws ++ [c])) : ∃ t o' us c', ts = t :: o' :: (us ++ [c']) ∧
      t.word = w ∧ o'.word = o ∧ us.map Token.word = ws ∧ c'.word = c := by
  obtain ⟨t, ts, rfl, ht, h⟩ := List.map_eq_cons_iff.mp h
  obtain ⟨o', ts, rfl, ho, h⟩ := List.map_eq_cons_iff.mp h
  obtain ⟨us, cs, rfl, hus, hcs⟩ := List.map_eq_append_iff.mp h
  obtain ⟨c', rfl, hc⟩ := List.map_eq_singleton_iff.mp hcs
  exact ⟨t, o', us, c', rfl, ht, ho, hus, hc⟩

theorem inline_lineStart {ts : List Token} {ws : List Word} (h : ts.map Token.word = ws)
    (hw : ∀ w ∈ ws, w.Inline) : ∀ t ∈ ts, t.lineStart = false := by
  intro t ht
  exact (hw t.word (by simp [← h, List.mem_map_of_mem ht])).lineStart

/-- An operand of one word is read from its token. -/
theorem reads_of_token {w : Word} {e : Expr} (hw : w.Inline)
    (h : ∀ t rest s, t.word = w → s.rest = t :: rest → t.lineStart = false → Detached rest →
      Gives (operand expressionAt) s [t] (·.plain = e.plain)) : Reads [w] e := by
  refine reads_of_operand fun ts rest s hts hr hd => ?_
  obtain ⟨t, rfl, rfl⟩ := List.map_eq_singleton_iff.mp hts
  exact h t rest s rfl hr hw.lineStart hd

/-- An operand with a bracket behind its first word is read from the tokens in and around it. -/
theorem reads_of_bracketed {w o c : Word} {ws : List Word} {e : Expr}
    (hw : ∀ v ∈ w :: o :: (ws ++ [c]), v.Inline)
    (h : ∀ t opening ts closing rest s, t.word = w → opening.word = o → closing.word = c →
      ts.map Token.word = ws → (∀ u ∈ ts, u.lineStart = false) →
      s.rest = t :: opening :: (ts ++ closing :: rest) → Detached rest →
      Gives (operand expressionAt) s (t :: opening :: (ts ++ [closing])) (·.plain = e.plain)) :
    Reads (w :: o :: (ws ++ [c])) e := by
  refine reads_of_operand fun ts rest s hts hr hd => ?_
  obtain ⟨t, o, us, c, rfl, rfl, rfl, hus, rfl⟩ := map_bracketed hts
  simp only [List.cons_append, List.append_assoc, List.nil_append] at hr
  exact h t o us c rest s rfl rfl rfl hus (inline_lineStart hus fun v h => hw v (by simp [h])) hr hd

section Words
variable {w o c : Word} {ws : List Word} {range : Span} {start : Expr} {second third : Option Expr}

theorem name_reads (hw : w.Inline) (hk : w.kind.isName = true) : Reads [w] (.name w.text range) := by
  refine reads_of_token hw fun t rest s ht hr hl hd => ?_
  subst ht
  refine .of_run (operand_named hr hl hk) ?_
  exact (name_gives hr hd).mono fun v hv => by rw [hv]; rfl

theorem number_reads (hw : w.Inline) (hk : w.kind = .number) : Reads [w] (.number w.text range) := by
  refine reads_of_token hw fun t rest s ht hr hl _ => ?_
  subst ht
  have hk : t.kind = _ := hk
  refine @leaf_gives _ _ _ _ (.number t.text t.span) hr (by simp [hk, unaryOf?]) ?_ rfl
  simp [primary, run_bind, hr, hl, hk]

theorem string_reads {q : Quote} {value : String} (hw : w.Inline) (hk : w.kind = .string q)
    (htext : w.text.toList = q.char :: (value.toList ++ [q.char])) :
    Reads [w] (.string value q range) := by
  refine reads_of_token hw fun t rest s ht hr hl _ => ?_
  subst ht
  have hk : t.kind = _ := hk
  have htext : t.text.toList = _ := htext
  refine @leaf_gives _ _ _ _ (.string value q t.span) hr (by simp [hk, unaryOf?]) ?_ rfl
  simp [primary, run_bind, hr, hl, hk, htext, unquote_quoted]

theorem system_reads {word : String} (hw : w.Inline) (hk : w.kind = .systemName)
    (htext : w.text.toList = '@' :: word.toList) : Reads [w] (.system word range) := by
  refine reads_of_token hw fun t rest s ht hr hl _ => ?_
  subst ht
  have hadmits : t.kind.Admits t.text.toList := hw.legible
  have hk : t.kind = _ := hk
  rw [hk] at hadmits
  rw [← systemName_text htext hadmits]
  refine @leaf_gives _ _ _ _ (.system (systemName t.text) t.span) hr (by simp [hk, unaryOf?]) ?_ rfl
  simp [primary, run_bind, hr, hl, hk]

section Bracketed
variable (hw : ∀ v ∈ w :: o :: (ws ++ [c]), v.Inline)
include hw

theorem call_reads {args : List Expr} (hk : w.kind.isName = true) (ho : o.kind = .symbol .leftParen)
    (hos : o.spaced = false) (hc : c.kind = .symbol .rightParen)
    (h : args ≠ [] → Commas Reads ws args) (hnil : args = [] → ws = [])
    (hhead : args ≠ [] → ∃ w vs, ws = w :: vs ∧ w.kind.beginsExpression = true) :
    Reads (w :: o :: (ws ++ [c])) (.call w.text args range) := by
  refine reads_of_bracketed hw fun t opening ts closing rest s ht hopen hclose hts hl hr _ => ?_
  subst ht hopen hclose
  refine .of_run (operand_named hr (hw t.word (by simp)).lineStart hk) ?_
  exact (call_gives hts hl hr (hw closing.word (by simp)).lineStart h hnil hhead ho hos hc).mono
    fun v hv => by simpa using hv

theorem dynamic_reads (hk : w.kind.isName = true) (ho : o.kind = .symbol .less)
    (hos : o.spaced = false) (hc : c.kind = .symbol .greater)
    (h : Commas Reads ws (start :: (second.toList ++ third.toList)))
    (hsecond : second = none → third = none)
    (hhead : ∃ w vs, ws = w :: vs ∧ w.kind.beginsExpression = true) :
    Reads (w :: o :: (ws ++ [c])) (.dynamic w.text start second third range) := by
  refine reads_of_bracketed hw fun t opening ts closing rest s ht hopen hclose hts hl hr hd => ?_
  subst ht hopen hclose
  refine .of_run (operand_named hr (hw t.word (by simp)).lineStart hk) ?_
  exact (dynamic_gives hts hl hr (hw closing.word (by simp)).lineStart h hsecond hhead ho hos hc hd).mono
    fun v hv => by simpa using hv

theorem substring_reads (hk : w.kind.isName = true) (ho : o.kind = .symbol .leftBracket)
    (hc : c.kind = .symbol .rightBracket) (h : Commas Reads ws (start :: second.toList)) :
    Reads (w :: o :: (ws ++ [c])) (.substring w.text start second range) := by
  refine reads_of_bracketed hw fun t opening ts closing rest s ht hopen hclose hts hl hr _ => ?_
  subst ht hopen hclose
  have hol : opening.lineStart = false := (hw opening.word (by simp)).lineStart
  refine .of_run (operand_named hr (hw t.word (by simp)).lineStart hk) ?_
  exact (substring_gives hts hl hr (hw closing.word (by simp)).lineStart h ho hol hc).mono
    fun v hv => by simpa using hv

theorem cursor_reads (hk : w.kind = .symbol .atSign) (ho : o.kind = .symbol .leftParen)
    (hc : c.kind = .symbol .rightParen) (h : Commas Reads ws (start :: second.toList)) :
    Reads (w :: o :: (ws ++ [c])) (.cursor start second range) := by
  refine reads_of_bracketed hw fun t opening ts closing rest s ht hopen hclose hts hl hr _ => ?_
  subst ht hopen hclose
  have hk : t.kind = _ := hk
  have htl : t.lineStart = false := (hw t.word (by simp)).lineStart
  have hol : opening.lineStart = false := (hw opening.word (by simp)).lineStart
  have hprimary : (primary expressionAt).run s = (cursor expressionAt).run s := by
    simp [primary, run_bind, hr, htl, hk]
  refine .of_run (operand_primary hr (by simp [hk, unaryOf?])) (.of_run hprimary ?_)
  exact (cursor_gives hts hl hr (hw closing.word (by simp)).lineStart h ho hol hc).mono
    fun v hv => by simpa using hv

end Bracketed

theorem paren_reads {inner : Expr} (hw : ∀ v ∈ o :: (ws ++ [c]), v.Inline)
    (ho : o.kind = .symbol .leftParen) (hc : c.kind = .symbol .rightParen) (h : Reads ws inner) :
    Reads (o :: (ws ++ [c])) (.paren inner range) := by
  refine reads_of_operand fun ts rest s hts hr hd => ?_
  obtain ⟨o, bs, rfl, rfl, hbs⟩ := List.map_eq_cons_iff.mp hts
  obtain ⟨us, cs, rfl, hus, hcs⟩ := List.map_eq_append_iff.mp hbs
  obtain ⟨c, rfl, rfl⟩ := List.map_eq_singleton_iff.mp hcs
  simp only [List.cons_append, List.append_assoc, List.nil_append] at hr
  have hol : o.lineStart = false := (hw o.word (by simp)).lineStart
  have ho : o.kind = _ := ho
  have hprimary : (primary expressionAt).run s = (parenthesized expressionAt).run s := by
    simp [primary, run_bind, hr, hol, ho]
  refine .of_run (operand_primary hr (by simp [ho, unaryOf?])) (.of_run hprimary ?_)
  exact (paren_gives h hus hr hc (hw c.word (by simp)).lineStart).mono fun v hv => by simpa using hv

end Words

/-- Written expressions that bind tightly enough are read as they were written. -/
theorem reads_of_writes {ws : List Word} {es : List Expr} (h : Writes ws es)
    (hw : ∀ w ∈ ws, w.Inline) (hranked : Expr.RankedAll es) (hes : es ≠ []) :
    Commas Reads ws es := by
  induction h with
  | nothing => exact absurd rfl hes
  | comma hwrites hne hc hlast ih ih' =>
    simp only [Expr.rankedAll_append] at hranked
    refine .more (ih (fun w h => hw w (by simp [h])) hranked.1 hne) hc ?_
    exact (ih' (fun w h => hw w (by simp [h])) hranked.2 (by simp)).single
  | binary hleft hop hright hs ih ih' =>
    obtain ⟨hfits, hl, hr⟩ := Expr.ranked_binary.mp (by simpa using hranked)
    have ih := ih (fun w h => hw w (by simp [h])) (by simpa using hl) (by simp)
    have ih' := ih' (fun w h => hw w (by simp [h])) (by simpa using hr) (by simp)
    refine .one (binary_reads ih.single hop ih'.single (hright.head (by simp)) hs ?_ hfits)
    exact fun w h => (hw w (List.mem_append_right _ h)).lineStart
  | unary hu hwrites hs ih =>
    obtain ⟨hroot, hinner⟩ := Expr.ranked_unary.mp (by simpa using hranked)
    have ih := ih (fun w h => hw w (by simp [h])) (by simpa using hinner) (by simp)
    exact .one (unary_reads hu ih.single hroot)
  | name hk => exact .one (name_reads (hw _ (by simp)) hk)
  | number hk => exact .one (number_reads (hw _ (by simp)) hk)
  | string hk htext => exact .one (string_reads (hw _ (by simp)) hk htext)
  | system hk htext => exact .one (system_reads (hw _ (by simp)) hk htext)
  | call hk ho hos hwrites hc ih =>
    have ih := ih (fun w h => hw w (by simp [h])) (Expr.ranked_call.mp (by simpa using hranked))
    refine .one (call_reads hw hk ho hos hc ih ?_ hwrites.head)
    rintro rfl
    exact hwrites.nil
  | dynamic hk ho hos hwrites hsecond hc ih =>
    have hargs := Expr.ranked_dynamic.mp (by simpa using hranked)
    have ih := ih (fun w h => hw w (by simp [h])) hargs (by simp)
    exact .one (dynamic_reads hw hk ho hos hc ih hsecond (hwrites.head (by simp)))
  | substring hk ho _ hwrites hc ih =>
    have hargs := Expr.ranked_substring.mp (by simpa using hranked)
    exact .one (substring_reads hw hk ho hc (ih (fun w h => hw w (by simp [h])) hargs (by simp)))
  | cursor hk ho hwrites hc ih =>
    have hargs := Expr.ranked_cursor.mp (by simpa using hranked)
    exact .one (cursor_reads hw hk ho hc (ih (fun w h => hw w (by simp [h])) hargs (by simp)))
  | paren ho hwrites hc ih =>
    have hinner := Expr.ranked_paren.mp (by simpa using hranked)
    have ih := ih (fun w h => hw w (by simp [h])) (by simpa using hinner) (by simp)
    exact .one (paren_reads hw ho hc ih.single)

end Grammar

end PickSyntax
