import PickSyntax.Analysis
import PickSyntax.Proofs.View.Statement

/-!
# What a program does not depend on

Reading a list of tokens commutes with every view. Two views say what does not matter for a
program and its faults: the places of tokens, and the comments beside them. Where the option to
keep comments is off, the program is the one that is read with it, without its comments, and
nothing else changes.
-/
namespace PickSyntax

open PickSyntax.Parser

namespace Parser.State

/-- Reading commutes with every view. -/
theorem readProgram_seen (v : View) (s : State) :
    (s.seen v).readProgram = (s.readProgram.1.seen v, s.readProgram.2.seen v) := by
  have hr := run_seen (through_eq_viewed (v := v) Grammar.program) s
  rw [readProgram, hr, readProgram]
  rcases Grammar.program.run s with ⟨_ | p, s'⟩ <;> rfl

theorem start_seen (v : View) (tokens : List Token) (comments : List Comment) :
    (start tokens comments).seen v =
      start (tokens.map (Token.seen v)) (Comment.seenAll v comments) := rfl

end Parser.State

/-- The tokens are the same but for their places. -/
structure Token.Alike (t u : Token) : Prop where
  kind : t.kind = u.kind
  text : t.text = u.text
  spaced : t.spaced = u.spaced
  lineStart : t.lineStart = u.lineStart

instance (t u : Token) : Decidable (t.Alike u) :=
  decidable_of_iff
    (t.kind = u.kind ∧ t.text = u.text ∧ t.spaced = u.spaced ∧ t.lineStart = u.lineStart)
    ⟨fun ⟨hk, ht, hs, hl⟩ => ⟨hk, ht, hs, hl⟩,
      fun h => ⟨h.kind, h.text, h.spaced, h.lineStart⟩⟩

theorem Token.Alike.seen {t u : Token} (h : t.Alike u) : t.seen .unplaced = u.seen .unplaced := by
  obtain ⟨hk, ht, hs, hl⟩ := h
  simp only [Token.seen, hk, ht, hs, hl]
  rfl

theorem map_seen_of_alike {ts us : List Token} (h : List.Forall₂ Token.Alike ts us) :
    ts.map (Token.seen .unplaced) = us.map (Token.seen .unplaced) := by
  induction h with
  | nil => rfl
  | cons ht _ ih => rw [List.map_cons, List.map_cons, ht.seen, ih]

/-- A view that keeps all texts does not touch the cause of a fault. -/
theorem Fault.seen_cause {v : View} (h : v.char = id) (f : Fault) : (f.seen v).cause = f.cause := by
  have ht : ∀ t, v.text t = t := fun t => by simp [View.text, h]
  cases hc : f.cause <;> simp [Fault.seen, hc, ht]

theorem Fault.seen_uncommented (f : Fault) : f.seen .uncommented = f := by
  have hc := Fault.seen_cause (v := .uncommented) rfl f
  cases f
  simp_all [Fault.seen, Span.seen, View.uncommented]

theorem Token.seen_uncommented (t : Token) : t.seen .uncommented = t := by
  simp [Token.seen, View.text, Span.seen, View.uncommented]

theorem Parser.State.ofLexing_seen (l : Lexing) :
    (ofLexing l true).seen .uncommented = ofLexing l false := by
  rw [ofLexing, start_seen, funext Token.seen_uncommented, List.map_id']
  rfl

/-- Tokens that are the same but for their places are read as the same program, whatever
comments stand beside them. -/
theorem readProgram_of_alike {ts us : List Token} (cs ds : List Comment)
    (h : List.Forall₂ Token.Alike ts us) :
    (State.start ts cs).readProgram.1.seen .unplaced =
        (State.start us ds).readProgram.1.seen .unplaced ∧
      (State.start ts cs).readProgram.2.faults.map Fault.cause =
        (State.start us ds).readProgram.2.faults.map Fault.cause := by
  have hseen : (State.start ts cs).seen .unplaced = (State.start us ds).seen .unplaced := by
    rw [State.start_seen, State.start_seen, map_seen_of_alike h]
    rfl
  have hread := congrArg State.readProgram hseen
  rw [State.readProgram_seen, State.readProgram_seen, Prod.mk.injEq] at hread
  refine ⟨hread.1, ?_⟩
  have hcause : Fault.cause ∘ Fault.seen .unplaced = Fault.cause :=
    funext (Fault.seen_cause rfl)
  have hfaults := congrArg (fun s : State => s.faults.map Fault.cause) hread.2
  simpa only [State.seen, List.map_map, hcause] using hfaults

/-- Without the option to keep comments, the program loses its comments and nothing else. -/
theorem parseWith_uncommented (limit : Nat) (source : String) :
    (parseWith ⟨limit, false⟩ source).program =
        (parseWith ⟨limit, true⟩ source).program.seen .uncommented ∧
      (parseWith ⟨limit, false⟩ source).diagnostics =
        (parseWith ⟨limit, true⟩ source).diagnostics := by
  have hread := State.readProgram_seen .uncommented (State.ofLexing (lex source) true)
  rw [State.ofLexing_seen] at hread
  have hfaults : Fault.seen .uncommented = id := funext Fault.seen_uncommented
  simp [parseWith, hread, State.seen, hfaults]

/-- Neither places nor comments have an influence on what is read. -/
theorem readProgram_ignores_places_and_comments :
    (∀ (ts us : List Token) (cs ds : List Comment), List.Forall₂ Token.Alike ts us →
      (State.start ts cs).readProgram.1.seen .unplaced =
          (State.start us ds).readProgram.1.seen .unplaced ∧
        (State.start ts cs).readProgram.2.faults.map Fault.cause =
          (State.start us ds).readProgram.2.faults.map Fault.cause) ∧
    ∀ (limit : Nat) (source : String),
      (parseWith ⟨limit, false⟩ source).program =
          (parseWith ⟨limit, true⟩ source).program.seen .uncommented ∧
        (parseWith ⟨limit, false⟩ source).diagnostics =
          (parseWith ⟨limit, true⟩ source).diagnostics :=
  ⟨fun _ _ cs ds h => readProgram_of_alike cs ds h, parseWith_uncommented⟩

/-- Three statements on three lines, and the same statements with other comments before and
between them. -/
theorem readProgram_ignores_places_and_comments_before :
    let l := lex "! sum\nX = 1\nFOR I = 1 TO 2\nPRINT X"
    let m := lex "* a longer note\nX = 1\n\nFOR   I = 1 TO 2\n* twice\nPRINT X"
    List.Forall₂ Token.Alike l.tokens m.tokens ∧
      (State.start l.tokens l.comments).readProgram.1.seen .unplaced =
        (State.start m.tokens m.comments).readProgram.1.seen .unplaced ∧
      (State.start l.tokens l.comments).readProgram.2.faults.map Fault.cause =
        (State.start m.tokens m.comments).readProgram.2.faults.map Fault.cause := by
  intro l m
  have h : List.Forall₂ Token.Alike l.tokens m.tokens := by decide +kernel
  exact ⟨h, readProgram_ignores_places_and_comments.1 _ _ l.comments m.comments h⟩

end PickSyntax
