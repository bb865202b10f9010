import PickSyntax.Proofs.Diagnostic.Edges
import PickSyntax.Proofs.Diagnostic.Faithful
import PickSyntax.Proofs.Diagnostic.Lines
import PickSyntax.Proofs.Lexing.Coverage
import PickSyntax.Proofs.Parser.Progress

/-!
# Diagnostics point at places of the source

A fault of the lexer covers characters of the source, and a fault of the grammar reaches from an
edge of a token to another; tokens cover characters too. So every range that is reported begins
and ends between characters, and its position is found by counting lines and characters: no
offset inside a character is ever asked for.
-/
namespace PickSyntax

/-- The range lies in the source, between characters. -/
structure Span.Within (source : List Char) (x : Span) : Prop where
  le : x.start ≤ x.stop
  start : IsBoundary source x.start
  stop : IsBoundary source x.stop

theorem Span.Holds.within {source text : List Char} {x : Span} (h : x.Holds source text) :
    x.Within source := by
  obtain ⟨hstart, hstop⟩ := h.boundaries
  obtain ⟨-, -, -, -, hend⟩ := h
  exact ⟨by omega, hstart, hstop⟩

/-- What the lexer finds fault with is a fault of the lexer. -/
theorem Lexer.fault_of_step {s : Lexer} {l : Lexeme} {f : Fault}
    (h : (s.step l).1.fault? = some f) : f.cause.faultClass = .lexical := by
  unfold step at h
  repeat' split at h
  all_goals cases h
  all_goals rfl

theorem lex_fault_class (source : String) :
    ∀ f ∈ (lex source).faults, f.cause.faultClass = .lexical := by
  suffices h : ∀ s : Lexer, ∀ p ∈ s.pieces, ∀ f, p.fault? = some f →
      f.cause.faultClass = .lexical by
    intro f hf
    obtain ⟨p, hp, hpf⟩ := List.mem_filterMap.mp hf
    exact h _ p hp f hpf
  intro s
  induction s using Lexer.pieces_induction with
  | nil s hr => simp [Lexer.pieces_nil hr]
  | cons s c cs hr ih =>
    rw [Lexer.pieces_cons hr]
    refine List.forall_mem_cons.mpr ⟨fun f hf => Lexer.fault_of_step hf, ih⟩

/-- Every fault of the lexer covers a text. -/
theorem lex_fault_within (source : String) :
    ∀ f ∈ (lex source).faults, f.span.Within source.toList := by
  intro f hf
  obtain ⟨p, hp, hpf⟩ := List.mem_filterMap.mp hf
  obtain ⟨text, -, hx, -⟩ := (Lexer.pieces_laid (Lexer.start source.toList)).holds [] rfl rfl hp
  rw [← Piece.span_of_fault? hpf]
  exact hx.within

/-- A token covers a text. -/
theorem lex_token_within (source : String) :
    ∀ t ∈ (lex source).tokens, t.span.Within source.toList := by
  intro t ht
  obtain ⟨p, hp, hpt⟩ := List.mem_filterMap.mp ht
  obtain ⟨text, -, hx, -⟩ := (Lexer.pieces_laid (Lexer.start source.toList)).holds [] rfl rfl hp
  rw [← Piece.span_of_token? hpt]
  exact hx.within

theorem IsEdge.isBoundary {source : String} {n : Nat} (h : IsEdge (lex source).tokens n) :
    IsBoundary source.toList n := by
  obtain ⟨t, ht, rfl | rfl⟩ := h
  · exact (lex_token_within source t ht).start
  · exact (lex_token_within source t ht).stop

open PickSyntax.Parser PickSyntax.Grammar

/-- Every fault of the grammar lies between edges of tokens. -/
theorem readingFaults_edged (source : String) (keepComments : Bool) :
    ∀ f ∈ readingFaults source keepComments, f.span.Edged (lex source).tokens := by
  let s := State.ofLexing (lex source) keepComments
  have hread : s.readProgram.2 = ((programItems statement).run s).2 := by
    unfold State.readProgram program
    rcases hr : (programItems statement).run s with ⟨_ | is, s'⟩
    · rw [run_bind_none hr]
    · rw [run_bind_some hr, run_pure]
  by_cases hnone : (lex source).tokens = []
  · -- Without tokens nothing is found, and there is no edge to report.
    have hrest : s.rest = [] := hnone
    have hrun : (programItems statement).run s = (some (withComments [] s), placed s) := by
      rw [programItems, loop_run, programStep_nil statement [] hrest]
    intro f hf
    rw [readingFaults, hread, hrun] at hf
    cases hf
  · have hs : s.Marked (lex source).tokens := by
      refine ⟨fun t ht => (lex_token_within source t ht).le, List.suffix_rfl, ?_,
        fun _ => hnone, ?_⟩
      · intro t ht
        cases ht
      · intro f hf
        cases hf
    intro f hf
    rw [readingFaults, hread] at hf
    exact (Marks.marked s hs).faults f hf

/-- A fault in the use of the language, not in its letters. -/
def FaultClass.isGrammatical : FaultClass → Bool
  | .grammar | .openBlock => true
  | .lexical | .limit => false

/-- The diagnostic points at a place of the source. -/
structure Diagnostic.Sited (source : String) (d : Diagnostic) : Prop where
  le : d.fault.span.start ≤ d.fault.span.stop
  inside : d.fault.span.stop ≤ byteSize source.toList
  start : IsBoundary source.toList d.fault.span.start
  stop : IsBoundary source.toList d.fault.span.stop
  position : IsPositionOf source.toList d.fault.span.start d.position
  edges : d.fault.cause.faultClass.isGrammatical = true → d.fault.span.Edged (lex source).tokens

namespace Diagnostic

/-- A diagnostic is a fault, or stands for the first fault that is not reported. -/
theorem exists_of_mem_report {source : List Char} {limit : Nat} {faults : List Fault}
    {d : Diagnostic} (h : d ∈ report source limit faults) :
    d.position = .ofOffset source d.fault.span.start ∧
      ∃ f ∈ faults, d.fault = f ∨ d.fault = ⟨.overLimit limit, f.span⟩ := by
  rw [report_eq] at h
  obtain h | h := List.mem_append.mp h
  · obtain ⟨f, hf, rfl⟩ := List.mem_map.mp h
    exact ⟨rfl, f, List.mem_of_mem_take hf, .inl rfl⟩
  · cases hd : faults.drop limit with
    | nil => simp [hd] at h
    | cons f fs =>
      rw [hd, cut_cons, List.mem_singleton] at h
      have hf : f ∈ faults.drop limit := hd ▸ List.mem_cons_self
      exact ⟨h ▸ rfl, f, List.mem_of_mem_drop hf, .inr (h ▸ rfl)⟩

theorem mem_order {lexical grammar : List Fault} {f : Fault} :
    f ∈ order lexical grammar ↔ f ∈ lexical ∨ f ∈ grammar := by
  rw [order, List.mem_append, (List.mergeSort_perm ..).mem_iff]

end Diagnostic

/-- All diagnostics point at places of the source. -/
def Analysis.Sited (source : String) (a : Analysis) : Prop :=
  ∀ d ∈ a.diagnostics, d.Sited source

/-- Every diagnostic of every source points at a place of the source, and says correctly which
line and which column that is; one that is about the grammar reaches from an edge of a token to
another. -/
theorem parseWith_sited (options : Options) (source : String) :
    (parseWith options source).Sited source := by
  intro d hd
  obtain ⟨hposition, f, hf, hfault⟩ := Diagnostic.exists_of_mem_report hd
  have hspan : d.fault.span = f.span := by obtain h | h := hfault <;> rw [h]
  have hwithin : f.span.Within source.toList ∧
      (d.fault.cause.faultClass.isGrammatical = true → f.span.Edged (lex source).tokens) := by
    obtain hlexical | hgrammar := Diagnostic.mem_order.mp hf
    · refine ⟨lex_fault_within source f hlexical, fun hclass => ?_⟩
      obtain h | h := hfault
      · rw [h, lex_fault_class source f hlexical] at hclass
        cases hclass
      · rw [h] at hclass
        cases hclass
    · have hedged := readingFaults_edged source options.keepComments f hgrammar
      exact ⟨⟨hedged.le, hedged.start.isBoundary, hedged.stop.isBoundary⟩, fun _ => hedged⟩
  obtain ⟨⟨hle, hstart, hstop⟩, hedges⟩ := hwithin
  rw [← hspan] at hle hstart hstop hedges
  exact ⟨hle, hstop.le, hstart, hstop, hposition ▸ hstart.isPositionOf, hedges⟩

end PickSyntax
