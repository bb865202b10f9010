import PickSyntax.Proofs.Content.Statement
import PickSyntax.Proofs.Parser.Progress

/-!
# Ranges nest, and comments stay

What a whole program has gathered. Its extents lie over the tokens of the source, so that every
range of the tree is exact and ranges nest, whatever was wrong with the source. Its comments are
comments of the source in their order, and where nothing is reported they are all of them, but
for the gaps: a `BEGIN CASE` without a clause has no place in the tree for the comments in it.
-/
namespace PickSyntax

namespace Grammar

open PickSyntax.Parser

variable {n : Nat}

theorem programStep_gathers (items : List Item) :
    Gathers n (content items) (programStep statement items) := by
  refine commentItems_gathers.bind fun cs => acceptAnywhere_gathers.next fun _ => ?_
  refine .ite (fun _ => .give (by simp)) fun _ => .look fun s hlt hs => ?_
  refine .ite (fun _ => .give (by simp)) fun _ => ?_
  exact .here ((item_gathers statement_gathers).bind fun i => .give (by simp)) hlt hs

theorem programItems_gathers : Gathers n ∅ (programItems statement) :=
  Gathers.loop programStep_gathers []

/-- A program is gathered from all tokens and comments that there are. -/
theorem readProgram_gathered {s : State} (hs : s.Sound) :
    s.Gathered s.rest s.comments (content s.readProgram.1.items) s.readProgram.2 := by
  obtain ⟨is, s', hrun, hrest, hcomments⟩ := programLoop_ends [] s
  obtain ⟨ts, cs, h⟩ := (programItems_gathers s (Nat.lt_succ_self _) hs).brings hrun
  have hts : s.rest = ts := by rw [h.went.rest, hrest, List.append_nil]
  have hcs : s.comments = cs := by rw [h.comments, hcomments, List.append_nil]
  rw [readProgram_of_some hrun, hts, hcs]
  exact h

end Grammar

open PickSyntax.Grammar PickSyntax.Parser PickSyntax.Extent

theorem lex_sound (source : String) (keepComments : Bool) :
    (State.ofLexing (lex source) keepComments).Sound :=
  ⟨lex_wellSpelled source, lex_ordered source⟩

/-- The ranges of a tree are exact and nest, for every source. Every statement, label,
expression, target, array bound and clause of a `BEGIN CASE`, at any depth, begins where some
token begins and ends where the same or a later one ends. It lies inside the node around it,
and nodes side by side are disjoint and stand in the order of the source: those at the top of
the program, and the parts of each node, among which are the items of its bodies. -/
theorem parse_ranges_nest (options : Options) (source : String) :
    let tokens := (lex source).tokens
    let extents := (parseWith options source).program.extents
    Apart extents ∧ ∀ x ∈ allOf extents, x.Spans tokens ∧ x.Nests := by
  intro tokens extents
  have h : Overlay tokens extents :=
    (readProgram_gathered (lex_sound source options.keepComments)).overlay
  have ho : Ordered 0 tokens := lex_ordered source
  exact ⟨h.apart ho, fun x hx => ⟨h.spans x hx, h.nests ho x hx⟩⟩

/-- The comments in a tree are comments of the source, each at most once and in their order.
Where nothing is reported they are all of them, but for those in the gaps: a comment is lost only
where a `BEGIN CASE` has no clause. -/
theorem parse_keeps_comments {options : Options} (hkeep : options.keepComments = true)
    (source : String) :
    let program := (parseWith options source).program
    program.comments.Sublist (lex source).comments ∧
      ((parseWith options source).diagnostics = [] →
        FillsMarks program.marks (lex source).comments ∧
          (program.caseless = false → program.comments = (lex source).comments)) := by
  intro program
  have h := readProgram_gathered (lex_sound source options.keepComments)
  have hcomments : (State.ofLexing (lex source) options.keepComments).comments =
      (lex source).comments := by
    rw [hkeep]
    rfl
  rw [hcomments] at h
  refine ⟨h.sublist, fun hd => ?_⟩
  have hfills := h.fills (Diagnostic.nil_of_report hd).2
  exact ⟨hfills, hfills.eq_of_noGap⟩

/-- A comment before a clause stands first in the clause, and one after it last. A block without
a clause loses its own comment only. -/
theorem parse_keeps_comments_around :
    ((parse "* A\nBEGIN CASE\n* B\nCASE X\n* C\nEND CASE; ! D").diagnostics = [] ∧
      (parse "* A\nBEGIN CASE\n* B\nCASE X\n* C\nEND CASE; ! D").program.caseless = false ∧
      (parse "* A\nBEGIN CASE\n* B\nCASE X\n* C\nEND CASE; ! D").program.comments =
        (lex "* A\nBEGIN CASE\n* B\nCASE X\n* C\nEND CASE; ! D").comments) ∧
    (parse "* A\nBEGIN CASE\n* B\nEND CASE; ! D").program.comments.map Comment.text =
        ["* A", "! D"] ∧
      FillsMarks (parse "* A\nBEGIN CASE\n* B\nEND CASE; ! D").program.marks
        (lex "* A\nBEGIN CASE\n* B\nEND CASE; ! D").comments := by
  have hd : (parse "* A\nBEGIN CASE\n* B\nCASE X\n* C\nEND CASE; ! D").diagnostics = [] := by
    decide +kernel
  have hc : (parse "* A\nBEGIN CASE\n* B\nCASE X\n* C\nEND CASE; ! D").program.caseless =
      false := by
    decide +kernel
  refine ⟨⟨hd, hc, ((@parse_keeps_comments {} rfl _).2 hd).2 hc⟩, by decide +kernel, ?_⟩
  exact ((@parse_keeps_comments {} rfl _).2 (by decide +kernel)).1

/-- Without a clause a `BEGIN CASE` loses the comments in it, and nothing is reported. -/
theorem not_parse_keeps_comments : ¬∀ source, (parse source).diagnostics = [] →
    (parse source).program.comments = (lex source).comments := by
  intro h
  have hlost := h "BEGIN CASE\n* C\nEND CASE" (by decide +kernel)
  revert hlost
  decide +kernel

end PickSyntax
