import PickSyntax.Analysis
import PickSyntax.Proofs.Diagnostic.Collector
import PickSyntax.Proofs.Lexing.Coverage

/-!
# The diagnostics are the faults

Nothing is lost between a fault and its diagnostic, and nothing is made up. The faults of the
lexer come first, as they stand in the source; the faults of the grammar follow, from the first
to the last, and those that start at the same byte in the order in which they were found. Of
this list the limit keeps the beginning, and a warning stands for what is cut off.
-/
namespace PickSyntax

open PickSyntax.Parser

/-- The faults in the order of where they start. Faults that start at one byte keep the order in
which they were found. -/
structure SortedByStart (found sorted : List Fault) : Prop where
  perm : sorted.Perm found
  ordered : sorted.Pairwise fun f g => f.span.start ≤ g.span.start
  stable : ∀ n, sorted.filter (fun f => f.span.start = n) = found.filter fun f => f.span.start = n

/-- What an analysis reports of all the faults of a source. -/
structure Analysis.Reports (a : Analysis) (source : List Char) (limit : Nat)
    (faults : List Fault) : Prop where
  /-- The first faults as errors, and a warning at the first of the others. -/
  diagnostics : a.diagnostics =
    (faults.take limit).map (.locate source .error) ++
      if h : limit < faults.length then
        [.locate source .warning ⟨.overLimit limit, faults[limit].span⟩]
      else []
  /-- Nothing is reported as an error only where there is none, or where none is allowed. -/
  hasErrors : a.hasErrors = true ↔ 0 < limit ∧ faults ≠ []

/-- The faults of the grammar that are found in a source. -/
def readingFaults (source : String) (keepComments : Bool) : List Fault :=
  (State.ofLexing (lex source) keepComments).readProgram.2.faults

namespace Diagnostic
variable {source : List Char} {limit : Nat}

/-- Sorting keeps the faults that start at one byte as they were. -/
theorem sortedByStart_mergeSort (found : List Fault) :
    SortedByStart found (found.mergeSort fun f g => f.span.start ≤ g.span.start) := by
  have htrans (f g h : Fault) : decide (f.span.start ≤ g.span.start) →
      decide (g.span.start ≤ h.span.start) → decide (f.span.start ≤ h.span.start) := by
    simp only [decide_eq_true_eq]
    exact Nat.le_trans
  have htotal (f g : Fault) :
      decide (f.span.start ≤ g.span.start) || decide (g.span.start ≤ f.span.start) := by
    simp only [Bool.or_eq_true, decide_eq_true_eq]
    exact Nat.le_total ..
  have hperm := List.mergeSort_perm found fun f g => f.span.start ≤ g.span.start
  refine ⟨hperm, ?_, fun n => ?_⟩
  · exact (List.pairwise_mergeSort htrans htotal found).imp fun h => of_decide_eq_true h
  -- The faults that start at `n` are in order as they stand, so they stay a sublist.
  have hequal : (found.filter fun f => f.span.start = n).Pairwise
      fun f g => decide (f.span.start ≤ g.span.start) := by
    refine List.pairwise_filter.mpr (List.pairwise_of_forall fun f g hf hg => ?_)
    simp only [decide_eq_true_eq] at hf hg ⊢
    omega
  have hsublist := (List.sublist_mergeSort htrans htotal hequal List.filter_sublist).filter
    fun f => f.span.start = n
  simp only [List.filter_filter, Bool.and_self] at hsublist
  exact (hsublist.eq_of_length (hperm.filter _).length_eq.symm).symm

theorem cut_drop (faults : List Fault) :
    cut source limit (faults.drop limit) =
      if h : limit < faults.length then
        [.locate source .warning ⟨.overLimit limit, faults[limit].span⟩]
      else [] := by
  split
  next h => rw [List.drop_eq_getElem_cons h, cut_cons]
  next h => rw [List.drop_eq_nil_of_le (Nat.not_lt.mp h), cut_nil]

theorem any_isError_report (faults : List Fault) :
    (report source limit faults).any isError = true ↔ 0 < limit ∧ faults ≠ [] := by
  have hcut : ∀ fs, (cut source limit fs).any isError = false := fun fs => by cases fs <;> rfl
  have herror : ∀ fs : List Fault,
      (fs.map (locate source .error)).any isError = true ↔ fs ≠ [] := fun fs => by
    cases fs with
    | nil => simp
    | cons f fs => simp [isError, locate]
  rw [report_eq, List.any_append, hcut, Bool.or_false, herror, ne_eq, List.take_eq_nil_iff, not_or]
  exact and_congr_left fun _ => Nat.pos_iff_ne_zero.symm

end Diagnostic

/-- The faults of the lexer start one behind the other. -/
theorem lex_faults_ordered (source : String) :
    (lex source).faults.Pairwise fun f g => f.span.start < g.span.start := by
  refine List.Pairwise.filterMap Piece.fault? (fun p q hpq f hf g hg => ?_)
    (Lexer.pieces_laid (Lexer.start source.toList)).apart
  rw [← Piece.span_of_fault? hf, ← Piece.span_of_fault? hg]
  exact Nat.lt_of_lt_of_le hpq.1 hpq.2

/-- The diagnostics of a source are its faults. Neither the list of all faults nor the program
depends on the limit; of the list, the first faults are reported as errors, as many as the limit
allows, and one warning stands for all others. -/
theorem parseWith_reports (source : String) (keepComments : Bool) :
    (lex source).faults.Pairwise (fun f g => f.span.start < g.span.start) ∧
      ∃ sorted, SortedByStart (readingFaults source keepComments) sorted ∧
        ∀ limit, (parseWith ⟨limit, keepComments⟩ source).Reports source.toList limit
            ((lex source).faults ++ sorted) ∧
          (parseWith ⟨limit, keepComments⟩ source).program =
            (State.ofLexing (lex source) keepComments).readProgram.1 := by
  refine ⟨lex_faults_ordered source, _, Diagnostic.sortedByStart_mergeSort _,
    fun limit => ⟨⟨?_, ?_⟩, rfl⟩⟩
  · exact (Diagnostic.report_eq _ _ _).trans (by rw [Diagnostic.cut_drop]; rfl)
  · exact Diagnostic.any_isError_report _

end PickSyntax
