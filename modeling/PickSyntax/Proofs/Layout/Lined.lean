import PickSyntax.Proofs.Content.Expression
import PickSyntax.Proofs.Expression.Beginning
import PickSyntax.Proofs.Layout.Confined
import PickSyntax.Proofs.Lexing.Streams
import PickSyntax.Proofs.Order.Heeding
import PickSyntax.Proofs.Structure.Sound

/-!
# Where an expression may cross a line

An expression stays on the line on which its statement stands. Only two of its tokens are taken
without a look at the line: a sign before an operand, and the parenthesis that closes an empty
list of arguments. So a token of an expression that begins a line is the first token of the
statement or one of these two, and the node that it belongs to says which.

The parsers are followed in two steps. Between two states they read: the tokens taken keep to the
line, and so does every node of the expressions that were read. From its parts an operand is first
only built, and it keeps to the line itself since its range is that of the tokens taken for it.
-/
namespace PickSyntax

open PickSyntax.Parser PickSyntax.Grammar

/-- The token is one that an expression takes on whatever line it stands: the sign of this node,
or the parenthesis that closes its empty list of arguments. -/
def Expr.Crosses (t : Token) : Expr → Prop
  | .unary op _ span => unaryOf? t.kind = some op ∧ t.span.start = span.start
  | .call _ [] span => t.kind = .symbol .rightParen ∧ t.span.stop = span.stop
  | _ => False

/-- The token begins a line only where it may: at `start`, or where it crosses the line in one of
the nodes. -/
def Token.Keeps (start : Nat) (nodes : List Expr) (t : Token) : Prop :=
  t.lineStart = true → t.span.start = start ∨ ∃ y ∈ nodes, y.Crosses t

/-- The tokens inside the node keep to the line. -/
def Expr.Lined (tokens : List Token) (start : Nat) (x : Expr) : Prop :=
  ∀ t ∈ tokens, t.isInside x.span = true → t.Keeps start x.nodes

namespace Token.Keeps
variable {start : Nat} {xs ys : List Expr} {t : Token}

theorem mono (h : t.Keeps start xs) (hs : xs ⊆ ys) : t.Keeps start ys :=
  fun hl => (h hl).imp_right fun ⟨y, hy, hc⟩ => ⟨y, hs hy, hc⟩

theorem of_onLine (h : t.lineStart = false) : t.Keeps start xs := by
  intro hl
  rw [h] at hl
  cases hl

end Token.Keeps

namespace Parser

variable {tokens : List Token} {start : Nat}

/-- From `s` to `s'` only tokens are taken that keep to the line. -/
def State.Keeps (start : Nat) (nodes : List Expr) (s s' : State) : Prop :=
  ∃ ts, s.rest = ts ++ s'.rest ∧ ∀ t ∈ ts, t.Keeps start nodes

/-- Between `s` and `s'`, inside a statement, the expressions have been read. -/
structure State.Reads (tokens : List Token) (start : Nat) (s : State) (es : List Expr)
    (s' : State) : Prop where
  keeps : s.Keeps start (Expr.nodesOf es) s'
  begun : s'.begun = true
  sound : ∀ e ∈ es, e.Sound (Expr.Lined tokens start)

/-- The state stands among the tokens behind the first one of its statement, with less than `n`
tokens left. -/
structure State.Amid (tokens : List Token) (n : Nat) (s : State) : Prop where
  within : s.rest <:+ tokens
  begun : s.begun = true
  fewer : s.rest.length < n

section States
variable {s s' s'' : State} {t : Token} {us ts : List Token} {es fs : List Expr} {n : Nat}

theorem State.Keeps.mono {xs ys : List Expr} (h : s.Keeps start xs s') (hs : xs ⊆ ys) :
    s.Keeps start ys s' := by
  obtain ⟨ts, hts, hkeeps⟩ := h
  exact ⟨ts, hts, fun t ht => (hkeeps t ht).mono hs⟩

theorem State.Keeps.trans {xs : List Expr} (h : s.Keeps start xs s') (k : s'.Keeps start xs s'') :
    s.Keeps start xs s'' := by
  obtain ⟨ts, hts, hkeeps⟩ := h
  obtain ⟨us, hus, hkeeps'⟩ := k
  refine ⟨ts ++ us, by rw [hts, hus, List.append_assoc], fun t ht => ?_⟩
  exact (List.mem_append.mp ht).elim (hkeeps t) (hkeeps' t)

theorem State.Keeps.past {xs : List Expr} (hr : s.rest = t :: us) (ht : t.Keeps start xs) :
    s.Keeps start xs (s.past t us) :=
  ⟨[t], hr, by simpa using ht⟩

theorem State.Keeps.suffix {xs : List Expr} (h : s.Keeps start xs s') : s'.rest <:+ s.rest := by
  obtain ⟨ts, hts, -⟩ := h
  exact ⟨ts, hts.symm⟩

namespace State.Reads

theorem refl (h : s.begun = true) : s.Reads tokens start [] s :=
  ⟨⟨[], rfl, nofun⟩, h, nofun⟩

theorem trans (h : s.Reads tokens start es s') (k : s'.Reads tokens start fs s'') :
    s.Reads tokens start (es ++ fs) s'' := by
  refine ⟨?_, k.begun, List.forall_mem_append.mpr ⟨h.sound, k.sound⟩⟩
  rw [Expr.nodesOf_append]
  exact (h.keeps.mono (List.subset_append_left ..)).trans
    (k.keeps.mono (List.subset_append_right ..))

theorem single {e : Expr} (h : s.Reads tokens start [e] s') : e.Sound (Expr.Lined tokens start) :=
  h.sound e (List.mem_singleton_self e)

theorem past (hr : s.rest = t :: us) (ht : t.Keeps start []) :
    s.Reads tokens start [] (s.past t us) :=
  ⟨.past hr ht, rfl, nofun⟩

end State.Reads

theorem State.Amid.after (h : s.Amid tokens n) (k : s.Reads tokens start es s') :
    s'.Amid tokens n :=
  ⟨k.keeps.suffix.trans h.within, k.begun, Nat.lt_of_le_of_lt k.keeps.suffix.length_le h.fewer⟩

theorem State.Amid.past (hs : s.rest <:+ tokens) (hr : s.rest = t :: us) (hn : s.rest.length ≤ n) :
    (s.past t us).Amid tokens n := by
  refine ⟨?_, rfl, ?_⟩
  · exact (List.suffix_cons t us).trans (hr ▸ hs)
  · rw [hr] at hn
    exact hn

/-- Between `s` and `s'` the node has been built out of expressions that were read. -/
structure State.Builds (tokens : List Token) (start : Nat) (s : State) (x : Expr) (s' : State) :
    Prop where
  keeps : s.Keeps start x.nodes s'
  begun : s'.begun = true
  parts : ∃ es, x.nodes = x :: Expr.nodesOf es ∧ ∀ e ∈ es, e.Sound (Expr.Lined tokens start)

theorem State.Reads.builds {x : Expr} (h : s.Reads tokens start es s')
    (hx : x.nodes = x :: Expr.nodesOf es) : s.Builds tokens start x s' :=
  ⟨h.keeps.mono (hx ▸ List.subset_cons_self ..), h.begun, es, hx, h.sound⟩

/-- A node keeps to the line if all that was taken for it does, since its range is that of the
tokens taken. -/
theorem State.Builds.reads {x : Expr} (h : s.Builds tokens start x s') (ho : Ordered 0 tokens)
    (hs : s.rest <:+ tokens) (ht : s.Took ts s') (hexact : Exact ts x) :
    s.Reads tokens start [x] s' := by
  have hlined : x.Lined tokens start := by
    obtain ⟨us, hus, hkeeps⟩ := h.keeps
    obtain rfl : us = ts := List.append_cancel_right (hus.symm.trans ht.rest)
    obtain ⟨first, vs, last, rfl, hlast, hspan⟩ := hexact
    obtain ⟨before, rfl⟩ := hs
    rw [hus] at ho
    have hrange := (hspan 0 ho.append_right.append_left).1
    intro t htoken hinside
    rw [hus] at htoken
    simp only [Token.isInside, hrange, Bool.and_eq_true, decide_eq_true_eq] at hinside
    obtain hbefore | htoken := List.mem_append.mp htoken
    · have hle := ho.stop_le_start hbefore (List.mem_append_left _ (List.mem_cons_self ..))
      have hlt := ho.append_left.bound t hbefore
      omega
    · obtain hmem | hbehind := List.mem_append.mp htoken
      · exact hkeeps t hmem
      · have hle := ho.append_right.stop_le_start (List.mem_of_getLast? hlast) hbehind
        have hlt := ho.append_right.append_right.bound t hbehind
        omega
  obtain ⟨es, hx, hes⟩ := h.parts
  have hnodes : Expr.nodesOf [x] = x.nodes := by simp [Expr.nodesOf]
  refine ⟨hnodes ▸ h.keeps, h.begun, List.forall_mem_singleton.mpr fun y hy => ?_⟩
  rw [hx] at hy
  obtain rfl | hy := List.mem_cons.mp hy
  · exact hlined
  · exact Expr.forall_nodesOf.mpr hes y hy

end States

end Parser

namespace Grammar

variable {tokens : List Token} {start : Nat} {s : State} {n : Nat}

section Lists
variable {s₀ : State} {es : List Expr}

/-- Between two expressions, a token of the line may be taken. -/
theorem Reads.accept (h : s₀.Reads tokens start es s) (k : TokenKind) :
    Returns (accept k) s fun _ s' => s₀.Reads tokens start es s' := by
  intro b s' hr
  have hb := accept_returns k s b s' hr
  cases b with
  | true =>
    obtain ⟨t, us, hrest, -, hl, rfl⟩ := hb
    simpa using h.trans (.past hrest (.of_onLine hl))
  | false =>
    obtain rfl : s' = s := hb
    exact h

theorem Reads.require (h : s₀.Reads tokens start es s) (k : TokenKind) (d : String) :
    Returns (require k d) s fun _ s' => s₀.Reads tokens start es s' := by
  refine Returns.look (Returns.ite (fun hk => ?_) fun _ => expected_returns)
  obtain ⟨t, us, hrest, -, hl⟩ := State.rest_of_isAtOnLine hk
  intro v s' hr
  rw [run_next hrest] at hr
  cases hr
  simpa using h.trans (.past hrest (.of_onLine hl))

variable (hn : ∀ level (s : State), s.Amid tokens n →
  Returns (expressionAt level) s fun e s' => s.Reads tokens start [e] s')
include hn

theorem afterComma_lined (hs : s.Amid tokens n) : Returns (afterComma? (expressionAt 0)) s
    fun o s' => s.Reads tokens start o.toList s' := by
  have hnone : s.Reads tokens start [] s := .refl hs.begun
  refine (Reads.accept hnone _).andThen fun b s₁ h => Returns.ite (fun _ => ?_) fun _ => .pure h
  exact (hn 0 s₁ (hs.after h)).andThen fun e s₂ he => .pure (h.trans he)

theorem commaList_lined (hs : s.Amid tokens n) : Returns (commaList (expressionAt 0)) s
    fun es s' => s.Reads tokens start es s' := by
  refine (hn 0 s hs).andThen fun e s₁ h => Returns.loop ?_ h
  intro es s₁ h
  refine (Reads.accept h _).andThen fun b s₂ h => Returns.ite (fun _ => ?_) fun _ => .pure h
  exact (hn 0 s₂ (hs.after h)).andThen fun e s₃ he => .pure (h.trans he)

/-- An empty list is closed by a parenthesis on whatever line it stands. -/
theorem arguments_lined (hs : s.Amid tokens n) : Returns (arguments expressionAt) s
    fun args s' => s.Reads tokens start args s' ∨ args = [] ∧ ∃ c, s.rest = c :: s'.rest ∧
      c.kind = .symbol .rightParen ∧ s'.previous = some c ∧ s'.begun = true := by
  have hs' : State.Amid tokens n { s with angled := false } := ⟨hs.within, hs.begun, hs.fewer⟩
  refine Returns.withAngled ((acceptAnywhere_returns _ _).andThen fun b s₁ h => ?_)
  cases b with
  | true =>
    obtain ⟨c, us, hrest, hk, rfl⟩ := h
    exact .pure (.inr ⟨rfl, c, hrest, hk, rfl, rfl⟩)
  | false =>
    obtain rfl := h
    refine (commaList_lined hn hs').andThen fun args s₂ h => ?_
    exact (Reads.require h _ _).andThen fun _ s₃ h => .pure (.inl ⟨h.keeps, h.begun, h.sound⟩)

theorem oneOrTwo_lined (hs : s.Amid tokens n) : Returns (oneOrTwo expressionAt) s
    fun es s' => s.Reads tokens start (es.1 :: es.2.toList) s' := by
  refine (hn 0 s hs).andThen fun a s₁ ha => ?_
  exact (afterComma_lined hn (hs.after ha)).andThen fun b s₂ hb => .pure (ha.trans hb)

theorem enclosed_lined (closing : Symbol) (hs : s.Amid tokens n) :
    Returns (enclosed expressionAt closing) s
      fun es s' => s.Reads tokens start (es.1 :: es.2.toList) s' := by
  have hs' : State.Amid tokens n { s with angled := false } := ⟨hs.within, hs.begun, hs.fewer⟩
  refine Returns.withAngled ((oneOrTwo_lined hn hs').andThen fun es s₁ h => ?_)
  exact (Reads.require h _ _).andThen fun _ s₂ h => .pure ⟨h.keeps, h.begun, h.sound⟩

theorem subscripts_lined (hs : s.Amid tokens n) : Returns (subscripts expressionAt) s
    fun es s' => s.Reads tokens start (es.1 :: (es.2.1.toList ++ es.2.2.toList)) s' := by
  refine (hn 0 s hs).andThen fun a s₁ ha => (Reads.accept ha _).andThen fun comma s₂ ha => ?_
  refine Returns.ite (fun _ => ?_) fun _ => .pure ha
  refine (hn 0 s₂ (hs.after ha)).andThen fun b s₃ hb => ?_
  refine (afterComma_lined hn ((hs.after ha).after hb)).andThen fun c s₄ hc => ?_
  exact .pure (by simpa using ha.trans (hb.trans hc))

/-- The reference is open on the line of its name. -/
theorem angleSubscripts_lined {t : Token} {us : List Token} (hs : s.Amid tokens n)
    (hr : s.rest = t :: us) (hl : t.lineStart = false) : Returns (angleSubscripts expressionAt) s
      fun es s' => s.Reads tokens start (es.1 :: (es.2.1.toList ++ es.2.2.toList)) s' := by
  refine Returns.skipOne hr ?_
  have hopen : s.Reads tokens start [] (s.past t us) := .past hr (.of_onLine hl)
  have hs₁ := hs.after hopen
  have hangled : State.Amid tokens n { s.past t us with angled := true } :=
    ⟨hs₁.within, hs₁.begun, hs₁.fewer⟩
  refine Returns.andThen (Q := fun es s' =>
    s.Reads tokens start (es.1 :: (es.2.1.toList ++ es.2.2.toList)) s') ?_ fun es s₂ h => ?_
  · refine Returns.withAngled fun es s₂ hrun => hopen.trans ?_
    have hsubs := subscripts_lined hn hangled es s₂ hrun
    exact ⟨hsubs.keeps, hsubs.begun, hsubs.sound⟩
  · refine (Reads.accept h _).andThen fun closed s₃ h => Returns.ite (fun _ => ?_) fun _ => .fail
    exact Returns.look (Returns.ite (fun _ => .fail) fun _ => .pure h)

end Lists

/-- The parenthesis behind an opening one closes the call, on whatever line it stands. -/
theorem emptyCall_builds {s' : State} {t opening closing : Token} (ho : Ordered 0 tokens)
    (hs : s.rest <:+ tokens) (hr : s.rest = [t, opening, closing] ++ s'.rest)
    (ht : t.Keeps start []) (hl : opening.lineStart = false)
    (hk : closing.kind = .symbol .rightParen) (hprevious : s'.previous = some closing)
    (hbegun : s'.begun = true) :
    s.Builds tokens start (.call t.text [] (s'.since t.span.start)) s' := by
  have ho' : Ordered 0 ([t, opening, closing] ++ s'.rest) := hr ▸ ho.suffix hs
  have hle := ho'.append_left.start_le_stop rfl
  refine ⟨⟨_, hr, ?_⟩, hbegun, [], rfl, nofun⟩
  simp only [List.forall_mem_cons]
  refine ⟨ht.mono (List.nil_subset _), .of_onLine hl, fun _ => .inr ?_, List.forall_mem_nil _⟩
  exact ⟨_, List.mem_cons_self .., hk, (State.since_stop hprevious hle).symm⟩

section Operands
variable (hn : ∀ level (s : State), s.Amid tokens n →
  Returns (expressionAt level) s fun e s' => s.Reads tokens start [e] s')
variable (ho : Ordered 0 tokens)
variable (hspaced : ∀ t ∈ tokens.tail, t.lineStart = true → t.spaced = true)
variable {t : Token} {us : List Token}
include hn

section Front
variable (hs : s.rest <:+ tokens) (hlen : s.rest.length ≤ n) (hr : s.rest = t :: us)
variable (ht : t.Keeps start [])
include hs hlen hr ht

include ho hspaced in
theorem named_builds :
    Returns (named expressionAt) s fun e s' => s.Builds tokens start e s' := by
  have hname : s.Reads tokens start [] (s.past t us) := .past hr ht
  have hs₁ := State.Amid.past hs hr hlen
  have hattached : ∀ u ∈ us.head?, u.lineStart = true → u.spaced = true := by
    intro u hu
    refine hspaced u (tail_subset_of_suffix hs ?_)
    rw [hr]
    exact List.mem_of_mem_head? hu
  have alone : s.Builds tokens start (.name t.text t.span) (s.past t us) := hname.builds rfl
  have hopen := opening_of_attachment us
  refine Returns.next hr (Returns.look ?_)
  rw [show (s.past t us).rest = us from rfl]
  cases ha : attachment us with
  | none => exact .pure alone
  | call =>
    rw [ha] at hopen
    obtain ⟨opening, vs, rfl, -⟩ := hopen
    have hl := attachment_onLine hattached (by simp [ha]) opening rfl
    have hs₂ := State.Amid.past hs₁.within rfl (Nat.le_of_lt hs₁.fewer)
    refine Returns.skipOne rfl ((arguments_lined hn hs₂).andThen fun args s₂ h =>
      Returns.look (.pure ?_))
    obtain h | ⟨rfl, c, hrest, hk, hprevious, hbegun⟩ := h
    · exact (hname.trans (.trans (.past rfl (.of_onLine hl)) h)).builds rfl
    · have hcall : s.rest = [t, opening, c] ++ s₂.rest := by
        rw [hr, show vs = _ from hrest]
        rfl
      exact emptyCall_builds ho hs hcall ht hl hk hprevious hbegun
  | dynamic =>
    rw [ha] at hopen
    obtain ⟨opening, vs, rfl, -⟩ := hopen
    have hl := attachment_onLine hattached (by simp [ha]) opening rfl
    refine (Returns.attempt (angleSubscripts_lined hn hs₁ rfl hl)).andThen fun o s₂ h => ?_
    cases o with
    | none =>
      obtain rfl := h.1 rfl
      exact .pure alone
    | some es =>
      refine Returns.look (.pure ((hname.trans (h.2 es rfl)).builds ?_))
      simp [Expr.nodes, Expr.nodesOf, Expr.nodesOf?_eq]
  | substring =>
    rw [ha] at hopen
    obtain ⟨opening, vs, rfl, -⟩ := hopen
    have hl := attachment_onLine hattached (by simp [ha]) opening rfl
    have hs₂ := State.Amid.past hs₁.within rfl (Nat.le_of_lt hs₁.fewer)
    refine Returns.skipOne rfl ((enclosed_lined hn _ hs₂).andThen fun es s₂ h =>
      Returns.look (.pure ?_))
    refine (hname.trans (.trans (.past rfl (.of_onLine hl)) h)).builds ?_
    simp [Expr.nodes, Expr.nodesOf, Expr.nodesOf?_eq]

theorem cursor_builds :
    Returns (cursor expressionAt) s fun e s' => s.Builds tokens start e s' := by
  have hmark : s.Reads tokens start [] (s.past t us) := .past hr ht
  have hs₁ := State.Amid.past hs hr hlen
  refine Returns.next hr ?_
  have hnone : State.Reads tokens start (s.past t us) [] (s.past t us) := .refl rfl
  refine (Reads.require hnone _ _).andThen fun _ s₂ hopen => ?_
  refine (enclosed_lined hn _ (hs₁.after hopen)).andThen fun es s₃ h => Returns.look (.pure ?_)
  exact (hmark.trans (hopen.trans h)).builds (by simp [Expr.nodes, Expr.nodesOf, Expr.nodesOf?_eq])

theorem parenthesized_builds :
    Returns (parenthesized expressionAt) s fun e s' => s.Builds tokens start e s' := by
  have hopen : s.Reads tokens start [] (s.past t us) := .past hr ht
  have hs₁ := State.Amid.past hs hr hlen
  have hs' : State.Amid tokens n { s.past t us with angled := false } :=
    ⟨hs₁.within, hs₁.begun, hs₁.fewer⟩
  refine Returns.next hr ?_
  refine Returns.andThen (Q := fun e s' => State.Reads tokens start (s.past t us) [e] s')
    (Returns.withAngled ?_) fun e s₂ h => Returns.look (.pure ?_)
  · refine (hn 0 _ hs').andThen fun e s₂ h => ?_
    exact (Reads.require h _ _).andThen fun _ s₃ h => .pure ⟨h.keeps, h.begun, h.sound⟩
  · exact (hopen.trans h).builds (by simp [Expr.nodes, Expr.nodesOf])

end Front

include ho hspaced in
/-- An operand begins a line only where its statement begins. -/
theorem primary_builds (hs : s.rest <:+ tokens) (hlen : s.rest.length ≤ n)
    (hfirst : s.begun = true ∨ ∀ t ∈ s.rest.head?, t.span.start = start) :
    Returns (primary expressionAt) s fun e s' => s.Builds tokens start e s' := by
  refine Returns.look ?_
  cases hr : s.rest with
  | nil => exact expected_returns
  | cons t us =>
    dsimp only
    refine Returns.ite (fun _ => expected_returns) fun hl => ?_
    have ht : t.Keeps start [] := by
      intro hline
      obtain hbegun | hstart := hfirst
      · simp [hline, hbegun] at hl
      · exact .inl (hstart t (by rw [hr]; rfl))
    have literal {e : Expr} (he : e.nodes = [e]) :
        Returns (skip 1 >>= fun _ => pure e) s fun e s' => s.Builds tokens start e s' :=
      Returns.skipOne hr (.pure (State.Reads.builds (.past hr ht) he))
    have hword := named_builds hn ho hspaced hs hlen hr ht
    cases t.kind with
    | number => exact literal rfl
    | string q => exact literal rfl
    | systemName => exact literal rfl
    | identifier => exact hword
    | keyword k => exact Returns.ite (fun _ => hword) fun _ => invalidOperand_returns
    | symbol y =>
      cases y with
      | atSign => exact cursor_builds hn hs hlen hr ht
      | leftParen => exact parenthesized_builds hn hs hlen hr ht
      | _ => exact invalidOperand_returns

include ho hspaced in
/-- A sign crosses lines, and so the operand behind it is the next one on any line. -/
theorem operand_builds (hs : s.rest <:+ tokens) (hlen : s.rest.length ≤ n)
    (hfirst : s.begun = true ∨ ∀ t ∈ s.rest.head?, t.span.start = start) :
    Returns (operand expressionAt) s fun e s' => s.Builds tokens start e s' := by
  refine Returns.look ?_
  split
  next op hop =>
    obtain ⟨k, hk, hop⟩ := Option.bind_eq_some_iff.mp hop
    obtain ⟨t, us, hr, rfl⟩ := State.rest_of_isAt (s := s) (k := k) (by simp [State.isAt, hk])
    refine Returns.next hr ((hn _ _ (.past hs hr hlen)).andThen fun e s₁ h => .pure ?_)
    let x : Expr := .unary op e ⟨t.span.start, e.span.stop⟩
    have hsign : t.Keeps start x.nodes := fun _ => .inr ⟨x, List.mem_cons_self .., hop, rfl⟩
    have hparts : x.nodes = x :: Expr.nodesOf [e] := by simp [x, Expr.nodes, Expr.nodesOf]
    refine ⟨.trans (.past hr hsign) (h.keeps.mono ?_), h.begun, [e], hparts, h.sound⟩
    exact hparts ▸ List.subset_cons_self ..
  next => exact primary_builds hn ho hspaced hs hlen hfirst

include ho hspaced in
theorem operand_lined (hs : s.rest <:+ tokens) (hlen : s.rest.length ≤ n)
    (hfirst : s.begun = true ∨ ∀ t ∈ s.rest.head?, t.span.start = start) :
    Returns (operand expressionAt) s fun e s' => s.Reads tokens start [e] s' := by
  intro e s' hr
  obtain ⟨ts, ht, -, hexact⟩ := (operand_exact (fun level s _ => expressionAt_exact level s)
    (Nat.le_refl s.rest.length)).yields e s' hr
  exact (operand_builds hn ho hspaced hs hlen hfirst e s' hr).reads ho hs ht hexact

omit hn in
include hspaced in
/-- An operator stands on the line with all its tokens. -/
theorem operator_lined (start : Nat) {angled : Bool} {op : BinaryOp} {width : Nat}
    (hs : s.rest <:+ tokens) (hbegun : s.begun = true) (hlen : s.rest.length ≤ n)
    (hop : infixAt? angled s.rest = some (op, width)) :
    (∃ us, s.Took us (s.drop width)) ∧ s.Reads tokens start [] (s.drop width) ∧
      (s.drop width).Amid tokens n := by
  obtain ⟨us, vs, hr, rfl, hspell, hline⟩ := infixAt?_onLine
    (fun t ht => hspaced t (tail_subset_of_suffix hs ht)) hop
  have hne : us ≠ [] := by
    rintro rfl
    cases hspell
  have htook := (State.took_drop hr).1
  have hreads : s.Reads tokens start [] (s.drop us.length) := by
    refine ⟨⟨us, htook.rest, fun t ht => .of_onLine (hline t ht)⟩, ?_, nofun⟩
    rw [htook.begun, hbegun, Bool.true_or]
  exact ⟨⟨us, htook⟩, hreads, hreads.keeps.suffix.trans hs, hreads.begun,
    Nat.lt_of_lt_of_le (htook.length_lt hne) hlen⟩

include ho hspaced in
theorem chain_lined (level : Nat) {left : Expr} {s₀ : State} {ts : List Token}
    (hs : s₀.rest <:+ tokens) (hlen : s.rest.length ≤ n)
    (h : s₀.Reads tokens start [left] s) (ht : s₀.Took ts s) (hexact : Exact ts left) :
    Returns (chain expressionAt level left) s fun e s' => s₀.Reads tokens start [e] s' := by
  -- What has been read so far is one expression from `s₀` on, over all the tokens since then.
  refine Returns.loop (I := fun left s => s.rest.length ≤ n ∧ s₀.Reads tokens start [left] s ∧
    ∃ ts, s₀.Took ts s ∧ Exact ts left) ?_ ⟨hlen, h, ts, ht, hexact⟩
  intro left s ⟨hlen, h, ts, ht, hexact⟩
  refine Returns.look ?_
  split
  next => exact .pure h
  next op width hop =>
    refine Returns.ite (fun _ => .pure h) fun _ => Returns.bind fun _ s₁ hskip => ?_
    obtain ⟨⟨us, hop⟩, hoperator, hamid⟩ := operator_lined hspaced start
      (h.keeps.suffix.trans hs) h.begun hlen hop
    cases hskip
    refine Returns.bind fun right s₂ hrun => Returns.pure ?_
    have hright := hn _ _ hamid right s₂ hrun
    obtain ⟨vs, ht', -, hexact'⟩ := (expressionAt_exact _ _).yields right s₂ hrun
    have htook := ht.trans (hop.trans ht')
    refine ⟨(hamid.after hright).fewer.le, ?_, _, htook, hexact.binary hexact'⟩
    refine State.Builds.reads ?_ ho hs htook (hexact.binary hexact')
    exact (h.trans (hoperator.trans hright)).builds (by simp [Expr.nodes, Expr.nodesOf])

end Operands

section Expressions
variable (ho : Ordered 0 tokens)
variable (hspaced : ∀ t ∈ tokens.tail, t.lineStart = true → t.spaced = true)
include ho hspaced

/-- An expression keeps to its line, but for the places where it may cross it; inside a statement
it begins on the line too. -/
theorem expressionAt_lined (level : Nat) (hs : s.rest <:+ tokens)
    (hfirst : s.begun = true ∨ ∀ t ∈ s.rest.head?, t.span.start = start) :
    Returns (expressionAt level) s fun e s' => s.Reads tokens start [e] s' := by
  -- By the tokens left: a nested expression stands behind one that was taken, so it is inside.
  induction hk : s.rest.length using Nat.strongRecOn generalizing level s with
  | ind k ih =>
    have hn (level : Nat) (s : State) (hs : s.Amid tokens k) :
        Returns (expressionAt level) s fun e s' => s.Reads tokens start [e] s' :=
      ih _ hs.fewer level hs.within (.inl hs.begun) rfl
    rw [expressionAt_eq]
    refine Returns.bind fun left s₁ hrun => ?_
    have hleft := operand_lined hn ho hspaced hs hk.le hfirst left s₁ hrun
    obtain ⟨ts, ht, -, hexact⟩ := (operand_exact (fun level s _ => expressionAt_exact level s)
      (Nat.le_refl s.rest.length)).yields left s₁ hrun
    exact chain_lined hn ho hspaced level hs (ht.length_le.trans hk.le) hleft ht hexact

theorem primary_lined (hs : s.rest <:+ tokens)
    (hfirst : s.begun = true ∨ ∀ t ∈ s.rest.head?, t.span.start = start) :
    Returns (primary expressionAt) s fun e s' => s.Reads tokens start [e] s' := by
  intro e s' hrun
  obtain ⟨ts, ht, -, hexact⟩ := (primary_exact (fun level s _ => expressionAt_exact level s)
    (Nat.le_refl s.rest.length)).yields e s' hrun
  have hbuilds := primary_builds (fun level s hs => expressionAt_lined ho hspaced level hs.within
    (.inl hs.begun)) ho hspaced hs (Nat.le_refl s.rest.length) hfirst
  exact (hbuilds e s' hrun).reads ho hs ht hexact

/-- Behind a keyword an expression stands inside its statement, and any other statement begins
with its first expression. -/
theorem promised_lined : Promised tokens (Expr.Lined tokens) where
  inside level s hs e s' hr _ :=
    (expressionAt_lined ho hspaced level hs.rest (.inl (hs.begun rfl)) e s' hr).single
  first s _ _ hr hs e s' hrun :=
    (expressionAt_lined ho hspaced 0 hs (.inr (by simp [hr])) e s' hrun).single
  target s _ _ hr hs e s' hrun :=
    (primary_lined ho hspaced hs (.inr (by simp [hr])) e s' hrun).single

end Expressions

end Grammar

/-- Every node of every expression of the program keeps to the line, in a statement that begins
where the one around the expression does. -/
def Program.Lined (tokens : List Token) (p : Program) : Prop :=
  ∀ x ∈ p.placed, ∀ e ∈ x.expr.nodes, e.Lined tokens x.start

/-- A token of an expression begins a line only as the first token of the statement, as a sign or
as the parenthesis that closes an empty list of arguments. -/
theorem parse_lined (options : Options) (source : String) :
    (parseWith options source).program.Lined (lex source).tokens := by
  have := promised_lined (lex_ordered source) (lex_streams source).spaced
  exact (parse_sound options source).exprs

/-- The sign of the next line belongs to a node, and it is not where the statement begins. -/
theorem parse_lined_sign :
    ∃ q ∈ (parse "X =\n-1").program.placed, ∃ x ∈ q.expr.nodes, ∃ t ∈ (lex "X =\n-1").tokens,
      t.lineStart = true ∧ t.span.start ≠ q.start ∧ ∃ y ∈ x.nodes, y.Crosses t := by
  have hsign : ∃ q ∈ (parse "X =\n-1").program.placed, ∃ x ∈ q.expr.nodes,
      ∃ t ∈ (lex "X =\n-1").tokens, t.isInside x.span = true ∧ t.lineStart = true ∧
        t.span.start ≠ q.start := by
    decide +kernel
  obtain ⟨q, hq, x, hx, t, ht, hinside, hline, hstart⟩ := hsign
  refine ⟨q, hq, x, hx, t, ht, hline, hstart, ?_⟩
  exact (parse_lined {} _ q hq x hx t ht hinside hline).resolve_left hstart

end PickSyntax
