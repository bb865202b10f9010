import PickSyntax.Analysis
import PickSyntax.Proofs.Lexing.Shapes
import PickSyntax.Proofs.Lexing.Streams
import PickSyntax.Proofs.Structure.Sound

/-!
# Every tree is proper

The restrictions on single nodes are those that the parsers of the forms promise. Of the
expressions only the texts depend on the tokens: a text holds no delimiter and no line feed, since
its token ends at the first of them.
-/
namespace PickSyntax

open PickSyntax.Parser PickSyntax.Grammar

theorem CharClass.eq_char_of_quote {c : Char} {q : Quote} (h : CharClass.of c = .quote q) :
    c = q.char := by
  unfold CharClass.of at h
  repeat' split at h
  all_goals cases h
  next hq =>
    unfold Quote.ofChar? at hq
    split at hq <;> cases hq <;> rfl

/-- Between the delimiters, or behind the only one, stands the run that was read. -/
theorem Lexeme.unquote_quoted (q : Quote) (cs : List Char) :
    unquote q (quoted q q.char cs).text = cs.takeWhile (isInside q) := by
  by_cases hopen : ∀ d ∈ (cs.dropWhile (isInside q)).head?, d ≠ q.char
  · have hlast : (cs.takeWhile (isInside q)).getLast? ≠ some q.char := fun h =>
      not_mem_takeWhile (by simp [isInside]) cs (List.mem_of_getLast? h)
    rw [quoted_unclosed hopen]
    simp [unquote, hlast]
  · obtain ⟨ds, hds⟩ := exists_delimiter hopen
    have hclosed : quoted q q.char (cs.takeWhile (isInside q) ++ q.char :: ds) = _ :=
      quoted_closed (of_mem_takeWhile (isInside q) cs)
    rw [← hds] at hclosed
    rw [hclosed]
    simp [unquote]

theorem Lexeme.unquote_scan {c : Char} {cs : List Char} {q : Quote}
    (h : (scan c cs).Makes (.string q)) :
    unquote q (scan c cs).text = cs.takeWhile (isInside q) := by
  have hyields := scan_yields c cs
  generalize hclass : CharClass.of c = kind at hyields
  have hquote : kind = .quote q := by
    cases h with
    | string hk => rw [hk] at hyields; cases hyields; rfl
    | openString hk => rw [hk] at hyields; cases hyields; rfl
  subst hquote
  obtain rfl := CharClass.eq_char_of_quote hclass
  simp only [scan, hclass]
  exact unquote_quoted q cs

theorem lex_wellQuoted (source : String) : ∀ t ∈ (lex source).tokens, t.WellQuoted := by
  suffices h : ∀ s : Lexer, ∀ t ∈ s.tokens, t.WellQuoted from h _
  intro s
  induction s using Lexer.pieces_induction with
  | nil s h => simp [Lexer.tokens_nil h]
  | cons s c cs h ih =>
    cases ht : (s.step (Lexeme.scan c cs)).1.token? with
    | none => rwa [Lexer.tokens_other h ht]
    | some t =>
      rw [Lexer.tokens_token h ht]
      refine List.forall_mem_cons.mpr ⟨fun q hq => ?_, ih⟩
      obtain ⟨k, hk, rfl, -⟩ := Lexer.step_token ht
      obtain rfl : k = .string q := hq
      have htext : unquote q (s.tokenOf (.string q) (Lexeme.scan c cs)).text.toList =
          cs.takeWhile (Lexeme.isInside q) := by
        simpa [Lexer.tokenOf] using Lexeme.unquote_scan hk
      rw [htext]
      exact ⟨Lexeme.not_mem_takeWhile (by simp [Lexeme.isInside]) cs,
        Lexeme.not_mem_takeWhile (by simp [Lexeme.isInside]) cs⟩

/-- Tokens of texts are all that the nodes of an expression need. -/
theorem promised_proper {tokens : List Token} (hq : ∀ t ∈ tokens, t.WellQuoted) :
    Promised tokens fun _ => Expr.Proper := by
  refine .of_anywhere (fun level => ?_) ?_
  · refine .of_meets (expressionAt_meets level) fun _ _ _ hts h => ?_
    simpa using h.spells.sound fun t ht => hq t (hts t ht)
  · refine .of_meets (fun s => primary_meets (fun level s _ => expressionAt_meets level s)
      (Nat.le_refl s.rest.length)) fun _ _ _ hts h => ?_
    simpa using h.spells.sound fun t ht => hq t (hts t ht)

/-- Every tree is proper. -/
theorem parse_proper (options : Options) (source : String) :
    (parseWith options source).program.Proper := by
  have := promised_proper (lex_wellQuoted source)
  have hsound := parse_sound options source
  exact ⟨hsound.forms, hsound.exprs⟩

end PickSyntax
