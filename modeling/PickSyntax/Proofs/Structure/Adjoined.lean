import PickSyntax.Proofs.Lexing.Tokens
import PickSyntax.Proofs.Structure.Sound

/-!
# What adjoins a name

A parenthesis or an angle bracket belongs to a name only if nothing separates the two. Here this
is said of the finished tree: the tokens around a name bear its node out, for a call, for a
reference `NAME<…>` and for a name that stands alone.

An attempt at a reference may be given up, alone or with the attempt around it, and what was read
in it is then read again with another angle context. No promise is lost by that. It is about
successes, so what was given up is not part of it, and it holds in every context, so it does not
matter in which one the last reading took place.
-/
namespace PickSyntax

open PickSyntax.Parser

/-- Kinds of token that are an operand or open one. -/
inductive TokenKind.IsOperand : TokenKind → Prop
  | identifier : IsOperand .identifier
  | number : IsOperand .number
  | string (q : Quote) : IsOperand (.string q)
  | systemName : IsOperand .systemName
  | atSign : IsOperand (.symbol .atSign)
  | leftParen : IsOperand (.symbol .leftParen)

theorem TokenKind.IsOperand.beginsOperand {k : TokenKind} (h : k.IsOperand) :
    k.beginsOperand = true := by
  cases h <;> rfl

/-- A node begins with the token, which is its name. No two tokens start at the same byte, so
there is only one such token. -/
structure Token.Names (t : Token) (word : String) (span : Span) : Prop where
  text : t.text = word
  start : t.span.start = span.start

/-- The marks of a reference: an opening one directly behind the name that is not the first half
of `<>` or `<=`, and a closing one with no operand behind it on its line. -/
structure Bracketed (opening : Token) (inside : List Token) (closing : Token)
    (after : List Token) : Prop where
  less : opening.kind = .symbol .less
  adjacent : opening.spaced = false
  unfused : ∀ u ∈ (inside ++ [closing]).head?, u.spaced = false →
    u.kind ≠ .symbol .greater ∧ u.kind ≠ .symbol .equals
  greater : closing.kind = .symbol .greater
  detached : ∀ u ∈ after.head?, u.lineStart = false → ¬u.kind.IsOperand

/-- The tokens around the name of a node say that it is a call, a reference or a name alone. -/
def Expr.Adjoined (tokens : List Token) : Expr → Prop
  | .call word _ span => ∃ before t opening after,
    tokens = before ++ t :: opening :: after ∧ t.Names word span ∧
      opening.kind = .symbol .leftParen ∧ opening.spaced = false
  | .dynamic word _ _ _ span => ∃ before t opening inside closing after,
    tokens = before ++ t :: opening :: (inside ++ closing :: after) ∧ t.Names word span ∧
      Bracketed opening inside closing after ∧ closing.span.stop = span.stop
  | .name word span => ∃ before t after,
    tokens = before ++ t :: after ∧ t.text = word ∧ t.span = span ∧
      ∀ u ∈ after.head?, u.kind = .symbol .leftParen → u.spaced = true
  | _ => True

namespace Grammar

/-- A parenthesis behind a name is its own unless it stands apart. -/
theorem spaced_of_attachment {us : List Token} (h : attachment us ≠ .call) :
    ∀ u ∈ us.head?, u.kind = .symbol .leftParen → u.spaced = true := by
  cases us with
  | nil => nofun
  | cons v vs =>
    intro u hu hk
    cases hu
    by_contra hs
    exact h (by simp [attachment, hk, hs])

theorem call_of_attachment {us : List Token} (h : attachment us = .call) :
    ∃ opening vs, us = opening :: vs ∧ opening.kind = .symbol .leftParen ∧
      opening.spaced = false := by
  cases us with
  | nil => cases h
  | cons v vs => grind [attachment]

theorem less_of_attachment {us : List Token} (h : attachment us = .dynamic) :
    ∃ opening vs, us = opening :: vs ∧ opening.kind = .symbol .less ∧ opening.spaced = false ∧
      isFusedLess us = false := by
  cases us with
  | nil => cases h
  | cons v vs => grind [attachment]

/-- Where `<` is not half of another mark, neither `>` nor `=` is directly behind it. -/
theorem unfused_of_isFusedLess {opening : Token} {vs : List Token}
    (h : isFusedLess (opening :: vs) = false) : ∀ u ∈ vs.head?, u.spaced = false →
      u.kind ≠ .symbol .greater ∧ u.kind ≠ .symbol .equals := by
  cases vs with
  | nil => nofun
  | cons v vs =>
    intro u hu hs
    cases hu
    refine ⟨fun hk => ?_, fun hk => ?_⟩ <;> simp [isFusedLess, symbolBeside?, hs, hk] at h

theorem detached_of_operandNext {s : State} (h : s.operandNext = false) :
    ∀ u ∈ s.rest.head?, u.lineStart = false → ¬u.kind.IsOperand := by
  intro u hu hl hoperand
  obtain ⟨us, hr⟩ := List.head?_eq_some_iff.mp hu
  simp [State.operandNext, hr, hl, hoperand.beginsOperand] at h

variable {tokens : List Token}

section Nested
variable {nested : AtLevel} [∀ level, Onward (nested level)]
variable (hn : ∀ level, Ensures tokens (nested level) (Expr.Sound (Expr.Adjoined tokens)))

/-- The subscripts that were read end at a mark that closes the reference. -/
theorem angleSubscripts_returns {s : State} {opening : Token} {us : List Token}
    (hr : s.rest = opening :: us) : Returns (angleSubscripts nested) s fun _ s' =>
      ∃ inside closing, us = inside ++ closing :: s'.rest ∧ closing.kind = .symbol .greater ∧
        s'.previous = some closing ∧ s'.operandNext = false := by
  refine Returns.skipOne hr (Returns.bind fun es s₂ h₂ => ?_)
  obtain ⟨inside, hinside⟩ := (Onward.run_reaches h₂).rest
  refine Returns.bind fun closed s₃ h₃ => Returns.ite (fun hclosed => ?_) fun _ => .fail
  subst hclosed
  obtain ⟨closing, vs, hvs, hk, -, rfl⟩ := accept_returns _ s₂ true s₃ h₃
  refine Returns.look (Returns.ite (fun _ => .fail) fun hnext => Returns.pure ?_)
  exact ⟨inside, closing, hvs ▸ hinside.symm, hk, rfl, by simpa using hnext⟩

include hn

theorem angleSubscripts_promises : Ensures tokens (angleSubscripts nested) fun es =>
    ∀ e ∈ es.1 :: (es.2.1.toList ++ es.2.2.toList), e.Sound (Expr.Adjoined tokens) := by
  refine .past fun _ => .bind (.withAngled (subscripts_promises hn)) fun es h => ?_
  exact .past fun _ => .ite (fun _ => .look fun _ => .ite (fun _ => .fail) fun _ => .pure h)
    fun _ => .fail

theorem named_adjoined (ho : Ordered 0 tokens) :
    Ensures tokens (named nested) (Expr.Sound (Expr.Adjoined tokens)) := by
  rintro s ⟨⟨before, htokens⟩, -⟩
  refine Returns.bind fun t s₁ h₁ => ?_
  obtain ⟨us, hr, rfl⟩ := taken_of_next h₁
  have hbehind : (s.past t us).Within false tokens := .past ⟨before, htokens⟩ hr
  rw [hr] at htokens
  have alone (h : attachment us ≠ .call) :
      (Expr.name t.text t.span).Sound (Expr.Adjoined tokens) := by
    simpa [Expr.Sound, Expr.nodes] using
      ⟨before, t, us, htokens.symm, rfl, rfl, spaced_of_attachment h⟩
  refine Returns.look ?_
  rw [show (s.past t us).rest = us from rfl]
  cases ha : attachment us with
  | none => exact Returns.pure (alone (by simp [ha]))
  | call =>
    obtain ⟨opening, vs, rfl, hk, hspaced⟩ := call_of_attachment ha
    refine EnsuresFrom.past (fun _ => .bind (arguments_promises hn) fun args h => ?_) _ hbehind
    refine .look fun s' => .pure (Expr.sound_call.mpr ⟨?_, h⟩)
    exact ⟨before, t, opening, vs, htokens.symm, ⟨rfl, (s'.since_start _).symm⟩, hk, hspaced⟩
  | dynamic =>
    obtain ⟨opening, vs, rfl, hk, hspaced, hfused⟩ := less_of_attachment ha
    refine Returns.bind fun o s₂ h₂ => ?_
    cases o with
    | none => exact Returns.pure (alone (by simp [ha]))
    | some es =>
      have hrun := run_of_attempt h₂
      obtain ⟨inside, closing, rfl, hclosing, hprevious, hnext⟩ :=
        angleSubscripts_returns rfl es s₂ hrun
      have hes := angleSubscripts_promises hn _ hbehind es s₂ hrun
      refine Returns.look (Returns.pure (Expr.sound_dynamic.mpr ⟨?_, hes⟩))
      refine ⟨before, t, opening, inside, closing, s₂.rest, htokens.symm,
        ⟨rfl, (s₂.since_start _).symm⟩, ⟨hk, hspaced, ?_, hclosing, ?_⟩, ?_⟩
      · simpa [List.head?_append] using unfused_of_isFusedLess hfused
      · exact detached_of_operandNext hnext
      · have ho' := (htokens ▸ ho).append_right
        have hbefore := (List.pairwise_cons.mp ho'.apart).1 closing (by simp)
        have hname := (ho'.bound t (by simp)).2
        have hclose := (ho'.bound closing (by simp)).2
        exact (State.since_stop hprevious (by omega)).symm
  | substring =>
    refine EnsuresFrom.past (fun _ => .bind (enclosed_promises hn _) fun es h => ?_) _ hbehind
    exact .look fun s' => .pure (Expr.sound_substring.mpr ⟨trivial, h⟩)

theorem cursor_adjoined : Ensures tokens (cursor nested) (Expr.Sound (Expr.Adjoined tokens)) := by
  refine .past fun t => .past fun _ => .bind (enclosed_promises hn _) fun es h => ?_
  exact .look fun s => .pure (Expr.sound_cursor.mpr ⟨trivial, h⟩)

theorem parenthesized_adjoined :
    Ensures tokens (parenthesized nested) (Expr.Sound (Expr.Adjoined tokens)) := by
  refine .past fun t => .bind (.withAngled (.bind (hn 0) fun inner h => .past fun _ => .pure h))
    fun inner h => ?_
  exact .look fun s => .pure (Expr.sound_paren.mpr ⟨trivial, h⟩)

theorem primary_adjoined (ho : Ordered 0 tokens) :
    Ensures tokens (primary nested) (Expr.Sound (Expr.Adjoined tokens)) := by
  have literal {e : Expr} (hnodes : e.nodes = [e]) (h : e.Adjoined tokens) :
      Ensures tokens (skip 1 >>= fun _ => pure e) (Expr.Sound (Expr.Adjoined tokens)) :=
    .past fun _ => .pure (by simpa [Expr.Sound, hnodes] using h)
  refine .look fun s => ?_
  split
  · exact .expected
  refine .ite (fun _ => .expected) fun _ => ?_
  split
  · exact literal rfl trivial
  · exact literal rfl trivial
  · exact literal rfl trivial
  · exact cursor_adjoined hn
  · exact parenthesized_adjoined hn
  · exact .past fun _ => .fail
  · exact named_adjoined hn ho
  · exact .ite (fun _ => named_adjoined hn ho) fun _ => .past fun _ => .fail

theorem operand_adjoined (ho : Ordered 0 tokens) :
    Ensures tokens (operand nested) (Expr.Sound (Expr.Adjoined tokens)) := by
  refine .look fun s => ?_
  split
  · refine .past fun t => .bind (hn _) fun inner h => .pure ?_
    exact Expr.sound_unary.mpr ⟨trivial, h⟩
  · exact primary_adjoined hn ho

theorem chain_adjoined (level : Nat) {left : Expr} (hleft : left.Sound (Expr.Adjoined tokens)) :
    Ensures tokens (chain nested level left) (Expr.Sound (Expr.Adjoined tokens)) := by
  have (left : Expr) : Onward (chainStep nested level left) := inferInstance
  refine @EnsuresFrom.loop _ _ _ _ _ this _ _ _ (fun left hleft => .look fun s => ?_) _ hleft
  cases infixAt? s.angled s.rest with
  | none => exact .pure hleft
  | some found =>
    refine .ite (fun _ => .pure hleft) fun _ => .past fun _ => .bind (hn _) fun right hright => ?_
    exact .pure (Expr.sound_binary.mpr ⟨trivial, hleft, hright⟩)

theorem expressionStep_adjoined (ho : Ordered 0 tokens) (level : Nat) :
    Ensures tokens (expressionStep nested level) (Expr.Sound (Expr.Adjoined tokens)) :=
  .bind (operand_adjoined hn ho) fun _ h => chain_adjoined hn level h

end Nested

theorem expressionAt_adjoined (ho : Ordered 0 tokens) (level : Nat) :
    Ensures tokens (expressionAt level) (Expr.Sound (Expr.Adjoined tokens)) :=
  .knot expressionAt_onward (fun _ honward hn level =>
    @expressionStep_adjoined _ _ honward hn ho level) level

theorem promised_adjoined (ho : Ordered 0 tokens) :
    Promised tokens fun _ => Expr.Adjoined tokens :=
  .of_anywhere (expressionAt_adjoined ho) (primary_adjoined (expressionAt_adjoined ho) ho)

end Grammar

open PickSyntax.Grammar

/-- The tokens bear out every node of every expression of the program. -/
def Program.Adjoined (tokens : List Token) (p : Program) : Prop :=
  ∀ x ∈ p.placed, ∀ e ∈ x.expr.nodes, e.Adjoined tokens

/-- Every call and every reference adjoins its name, and no parenthesis adjoins a name that
stands alone. -/
theorem parse_adjoined (options : Options) (source : String) :
    (parseWith options source).program.Adjoined (lex source).tokens := by
  have := promised_adjoined (lex_ordered source)
  exact (parse_sound options source).exprs

end PickSyntax
