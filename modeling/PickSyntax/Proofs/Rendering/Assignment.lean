import PickSyntax.Analysis
import PickSyntax.Proofs.Rendering.Reading

/-!
# Written statements and programs

A statement that stands on lines of its own is read as one item, wherever a statement list
stands. The first of these is the assignment; with it the round trip of expressions is complete:
every canonical expression can be written, and reads back from the right of an assignment.
-/
namespace PickSyntax

/-- The trees without their byte ranges. -/
def Form.plain (f : Form) : Form := f.relocate fun _ => 0

def Statement.plain (s : Statement) : Statement := s.relocate fun _ => 0

def Item.plain (i : Item) : Item := i.relocate fun _ => 0

namespace Grammar

open PickSyntax.Parser

/-- A line ends here. -/
def LineEnds (rest : List Token) : Prop := ∀ t ∈ rest.head?, t.lineStart = true

/-- The kinds that begin the statements of a structured program. -/
def opensItem : TokenKind → Bool
  | .identifier => true
  | .keyword k => k.isSoft || k == .NULL || k == .IF || k == .FOR || k == .LOOP || k == .BEGIN
  | _ => false

section Statements
variable {s : State} {t e : Token} {ts us rest : List Token} {ws : List Word} {value : Expr}
variable {st : Parser Statement} {fs : List Fault}

theorem form_of_isName (h : t.kind.isName = true) : form st t = assignmentOrExpression t := by
  unfold form
  split
  next k hk =>
    rw [hk] at h
    cases k <;> first | rfl | cases h
  next => rfl

/-- An assignment to a name. -/
theorem assignment_gives (hr : s.rest = t :: e :: (ts ++ rest)) (hb : s.begun = false)
    (hk : t.kind.isName = true) (he : e.kind = .symbol .equals) (hel : e.lineStart = false)
    (hts : ts.map Token.word = ws) (hv : Reads ws value) (hends : Ends s.angled rest) :
    Gives (assignmentOrExpression t) s (t :: e :: ts)
      (·.plain = .assignment (.name t.text (.point 0)) value.plain) := by
  have hd : Detached (e :: (ts ++ rest)) :=
    detached_of_kind (by simp [he]) (by simp [he, TokenKind.beginsOperand])
  simp only [assignmentOrExpression, isName_beginsExpression hk, unaryOf?_of_isName hk]
  refine (Gives.of_run (primary_named hr (by simp [hb]) hk) (name_gives hr hd)).bind
    fun target s₁ h₁ htarget => ?_
  subst htarget
  have hr₁ := h₁.rest_one hr
  refine Gives.look ?_
  simp only [Expr.isAssignable, State.isAtOnLine_cons hr₁ he hel, Bool.and_self, if_true]
  refine (Gives.skipOne hr₁).bind fun _ s₂ h₂ _ => ?_
  have hends₂ : Ends s₂.angled rest := by rwa [h₂.angled, h₁.angled]
  exact (hv.gives hts (h₂.rest_one hr₁) hends₂).map fun v hv => congrArg (Form.assignment _) hv

theorem statement_records {f : Form} (hr : s.rest = t :: us)
    (h : Records (form statement t) s ts fs (·.plain = f)) :
    Records statement s ts fs (·.plain = ⟨f, .point 0⟩) := by
  rw [statement_eq]
  refine .look ?_
  simp only [hr]
  obtain ⟨v, s', hrun, ht, hf, hv⟩ := h
  have hplain : (Statement.mk v (s'.since t.span.start)).plain = ⟨f, .point 0⟩ := by
    rw [Statement.plain, Statement.relocate]
    exact congrArg (Statement.mk · _) hv
  exact ⟨_, s', run_bind_some hrun _, ht, hf, hplain⟩

theorem statement_gives {f : Form} (hr : s.rest = t :: us)
    (h : Gives (form statement t) s ts (·.plain = f)) :
    Gives statement s ts (·.plain = ⟨f, .point 0⟩) :=
  gives_iff_records.mpr (statement_records hr h.records)

/-- A statement up to the end of its line is an item. -/
theorem item_records {v : Statement} (hr : s.rest = t :: us) (hk : t.kind ≠ .number)
    (hrest : s.rest = ts ++ rest) (hends : LineEnds rest) (hne : ts ≠ [])
    (h : Records statement { s with begun := false } ts fs (·.plain = v)) :
    Records (item statement) s ts fs fun o => o.map Item.plain = some (.statement v) := by
  have hl : label? s = none := by simp [label?, hr, hk]
  obtain ⟨w, s₁, hrun, ht, hf, hw⟩ := h
  have hmay : s₁.mayEndStatement = true := by
    have hrest₁ := ht.rest_eq hrest
    cases rest with
    | nil => simp [State.mayEndStatement, hrest₁]
    | cons u us => simp [State.mayEndStatement, hrest₁, hends u rfl]
  have hend : (endStatement s.rest.length).run s₁ = (some (), s₁) := by
    rw [endStatement, run_bind, run_look]
    simp [hmay]
  refine ⟨some (.statement w), s₁, ?_, ?_, hf, congrArg (some <| Item.statement ·) hw⟩
  · rw [run_item hl, hrun]
    exact run_bind_some hend _
  · refine ⟨ht.rest, ht.previous, ?_, ht.comments, ht.blocks, ht.angled⟩
    rw [ht.begun]
    cases ts with
    | nil => exact absurd rfl hne
    | cons => simp

end Statements

/-- A round of a statement list inside these blocks, which takes one item where a statement
begins. -/
structure ItemStep (blocks : List Block) {γ : Type}
    (step : List Item → Parser (Step (List Item) γ)) : Prop where
  advances : Advances step
  takes : ∀ {items s t us}, s.blocks = blocks → s.rest = t :: us → s.comments = [] →
    opensItem t.kind = true → (step items).run s =
      (item statement >>= fun o => pure (.more (items ++ o.toList))).run s

theorem opensItem_ne_semicolon {k : TokenKind} (h : opensItem k = true) : k ≠ .symbol .semicolon := by
  rintro rfl
  cases h

theorem programStep_takes (blocks : List Block) : ItemStep blocks (programStep statement) where
  advances := programStep_advances
  takes := by
    intro items s t us _ hr hc hk
    rw [programStep_item statement items hr (opensItem_ne_semicolon hk), placed_of_comments hc]
    simp [withComments, hc]

/-- The statement list of `ts` is read from one state to another, and the faults `fs` are found
on the way. -/
def ListRecords {γ : Type} (step : List Item → Parser (Step (List Item) γ)) (s : State)
    (ts : List Token) (fs : List Fault) (js : List Item) : Prop :=
  ∀ items, ∃ is s', (loop step items).run s = (loop step (items ++ is)).run s' ∧ s.Took ts s' ∧
    s'.faults = s.faults ++ fs ∧ is.map Item.plain = js

section Lists
variable {γ : Type} {step : List Item → Parser (Step (List Item) γ)} {s : State}
variable {ts us rest : List Token} {fs gs : List Fault} {js ks : List Item} {t : Token}

theorem ListRecords.nil : ListRecords step s [] [] [] :=
  fun items => ⟨[], s, by simp, .refl s, by simp, rfl⟩

theorem ListRecords.append (h : ListRecords step s ts fs js)
    (k : ∀ s', s.Took ts s' → ListRecords step s' us gs ks) :
    ListRecords step s (ts ++ us) (fs ++ gs) (js ++ ks) := by
  intro items
  obtain ⟨is, s₁, hrun₁, h₁, hf₁, his⟩ := h items
  obtain ⟨is', s₂, hrun₂, h₂, hf₂, his'⟩ := k s₁ h₁ (items ++ is)
  exact ⟨is ++ is', s₂, by rw [hrun₁, hrun₂, List.append_assoc], h₁.trans h₂,
    by rw [hf₂, hf₁, List.append_assoc], by rw [List.map_append, his, his']⟩

/-- One item of a list that goes on. -/
theorem ItemStep.round {i : Item} (h : ItemStep s.blocks step) (hr : s.rest = t :: us)
    (hc : s.comments = []) (hk : opensItem t.kind = true)
    (hi : Records (item statement) s ts fs fun o => o.map Item.plain = some i) :
    ListRecords step s ts fs [i] := by
  intro items
  obtain ⟨o, s', hrun, ht, hf, ho⟩ := hi
  cases o with
  | none => cases ho
  | some j =>
    refine ⟨[j], s', ?_, ht, hf, congrArg ([·]) (Option.some_inj.mp ho)⟩
    have hstep : (step items).run s = (some (.more (items ++ [j])), s') := by
      rw [h.takes rfl hr hc hk, run_bind_some hrun]
      rfl
    rw [loop_eq h.advances, run_bind_some hstep]

/-- A statement on lines of its own, in a list that goes on. -/
theorem ItemStep.statement {v : Statement} (h : ItemStep s.blocks step) (hr : s.rest = t :: us)
    (hrest : s.rest = ts ++ rest) (hc : s.comments = []) (hk : opensItem t.kind = true)
    (hends : LineEnds rest) (hne : ts ≠ [])
    (hv : Records Grammar.statement { s with begun := false } ts fs (·.plain = v)) :
    ListRecords step s ts fs [.statement v] := by
  refine h.round hr hc hk (item_records hr ?_ hrest hends hne hv)
  intro hn
  rw [hn] at hk
  cases hk

end Lists

end Grammar

open PickSyntax.Parser PickSyntax.Grammar

/-- A written program is read word by word, and what is recorded on the way is reported. -/
theorem parseWith_write (o : Options) {ws : List Word} {fs : List Fault} {js : List Item}
    (hws : Fluent ws) (h : ∀ ts, ts.map Token.word = ws → FromStart ts →
      ListRecords (programStep statement) (.start ts []) ts fs js) :
    (parseWith o (String.ofList (write ws))).diagnostics =
        Diagnostic.report (write ws) o.reportLimit (Diagnostic.order [] fs) ∧
      (parseWith o (String.ofList (write ws))).program.items.map Item.plain = js := by
  obtain ⟨hlex, hstart⟩ := lex_write_fromStart hws
  obtain ⟨is, s, hrun, ht, hf, his⟩ := h _ hlex.words hstart []
  have hrest : s.rest = [] := ht.rest_eq (List.append_nil _).symm
  have hcomments : s.comments = [] := ht.comments
  have hfaults : s.faults = fs := hf
  have hloop : (loop (programStep statement) ([] ++ is)).run s = (some is, s) := by
    rw [loop_run, programStep_nil statement _ hrest, withComments_nil hrest, placed_of_comments hcomments,
      hcomments]
    simp
  have hprogram : program.run (.start (lex (String.ofList (write ws))).tokens []) =
      (some ⟨is⟩, s) := run_bind_some (hrun.trans hloop) _
  have hread : (State.ofLexing (lex (String.ofList (write ws))) o.keepComments).readProgram =
      (⟨is⟩, s) := by
    rw [State.ofLexing, hlex.comments, ite_self, State.readProgram, hprogram]
  have hparse : parseWith o (String.ofList (write ws)) =
      ⟨⟨is⟩, Diagnostic.report (write ws) o.reportLimit (Diagnostic.order [] fs)⟩ := by
    simp [parseWith, hread, hlex.faults, hfaults]
  rw [hparse]
  exact ⟨rfl, his⟩

/-- A written program in which nothing is wrong reads back without diagnostics. -/
theorem parse_write {ws : List Word} {js : List Item} (hws : Fluent ws)
    (h : ∀ ts, ts.map Token.word = ws → ListRecords (programStep statement) (.start ts []) ts [] js) :
    (parse (String.ofList (write ws))).diagnostics = [] ∧
      (parse (String.ofList (write ws))).program.items.map Item.plain = js := by
  obtain ⟨hdiagnostics, hitems⟩ := parseWith_write {} hws fun ts hts _ => h ts hts
  exact ⟨hdiagnostics.trans (by simp [Diagnostic.order, Diagnostic.report, Collector.addAll]), hitems⟩

/-- The words before the expression. -/
def assignmentHead : List Word :=
  [⟨.identifier, "X", false, true⟩, ⟨.symbol .equals, "=", true, false⟩]

theorem write_assignment {w : Word} {ws : List Word} (hs : w.spaced = true)
    (hl : w.lineStart = false) : String.ofList (write (assignmentHead ++ w :: ws)) =
      "X = " ++ String.ofList (write (w :: ws)) := by
  apply String.toList_inj.mp
  simp [assignmentHead, write, Word.gap, hs, hl]

theorem fluent_assignment {e : Expr} {ws : List Word} (h : e.InWords ws) :
    Fluent (assignmentHead ++ ws) where
  legible := by
    simp only [List.forall_mem_append]
    refine ⟨?_, fun w hw => (h.2.1 w hw).legible⟩
    simp only [assignmentHead, List.forall_mem_cons]
    exact ⟨.identifier (by decide) (by simp) (by decide), .symbol .equals, by simp⟩
  follows := by
    refine .cons_cons ⟨by simp, by simp, by simp⟩ (h.follows rfl)
  first := by simp [assignmentHead]

/-- A written expression reads back as it was, if its operands bind tightly enough. -/
theorem parse_rendering {e : Expr} {text : String} (hranked : e.Ranked) (h : e.Rendering text) :
    (parse ("X = " ++ text)).diagnostics = [] ∧
      (parse ("X = " ++ text)).program.items.map Item.plain =
        [.statement ⟨.assignment (.name "X" (.point 0)) e.plain, .point 0⟩] := by
  obtain ⟨ws, hws, rfl⟩ := h
  obtain ⟨w, vs, rfl, -⟩ := hws.1.head (by simp)
  rw [← write_assignment (hws.2.2 w rfl) (hws.2.1 w (by simp)).lineStart]
  refine parse_write (fluent_assignment hws) fun ts hts => ?_
  obtain ⟨x, ts, rfl, hx, hts⟩ := List.map_eq_cons_iff.mp hts
  obtain ⟨eq, us, rfl, heq, hus⟩ := List.map_eq_cons_iff.mp hts
  have hk : x.kind = .identifier := congrArg Word.kind hx
  have htext : x.text = "X" := congrArg Word.text hx
  have hreads := (reads_of_writes hws.1 hws.2.1 (by simpa using hranked) (by simp)).single
  have hr : (State.start (x :: eq :: us) []).rest = x :: eq :: (us ++ []) := by
    rw [List.append_nil]
    rfl
  have hform : Gives (form statement x) (State.start (x :: eq :: us) []) (x :: eq :: us)
      (·.plain = .assignment (.name "X" (.point 0)) e.plain) := by
    rw [form_of_isName (by rw [hk]; rfl), ← htext]
    exact assignment_gives hr rfl (by rw [hk]; rfl) (congrArg Word.kind heq)
      (congrArg Word.lineStart heq) hus hreads ends_nil
  exact (programStep_takes _).statement hr hr rfl (by rw [hk]; rfl) (by simp [LineEnds]) (by simp)
    (statement_gives hr hform).records

/-- Every canonical expression can be written, and every text that writes it reads back, from
the right of an assignment, as the expression up to byte ranges. -/
theorem expression_round_trip (e : Expr) (h : e.Canonical) : (∃ text, e.Rendering text) ∧
    ∀ text, e.Rendering text → (parse ("X = " ++ text)).diagnostics = [] ∧
      (parse ("X = " ++ text)).program.items.map Item.plain =
        [.statement ⟨.assignment (.name "X" (.point 0)) e.plain, .point 0⟩] := by
  refine ⟨?_, fun text htext => parse_rendering h.ranked htext⟩
  obtain ⟨ws, hws⟩ := Expr.Canonical.exists_words e h
  exact ⟨_, ws, hws, rfl⟩

/-- The tree of `A<1> ^ - 2`. -/
def signedPower : Expr :=
  .binary (.dynamic "A" (.number "1" (.point 0)) none none (.point 0)) .pow
    (.unary .neg (.number "2" (.point 0)) (.point 0)) (.point 0)

theorem signedPower_canonical : signedPower.Canonical := by
  have hname : IsName "A" := ⟨.identifier, rfl, .identifier (by decide) (by simp) (by decide)⟩
  intro x hx
  simp only [signedPower, Expr.nodes, Expr.nodesOf?, List.append_nil, List.cons_append,
    List.nil_append, List.mem_cons, List.not_mem_nil, or_false] at hx
  rcases hx with rfl | rfl | rfl | rfl | rfl
  · exact ⟨trivial, by simp [Expr.Fits, Expr.infixLevel?]⟩
  · exact ⟨⟨hname, fun h => h⟩, trivial⟩
  · exact ⟨.digits (by decide) (by simp), trivial⟩
  · exact ⟨trivial, rfl⟩
  · exact ⟨.digits (by decide) (by simp), trivial⟩

theorem signedPower_rendering : signedPower.Rendering "A<1> ^ - 2" := by
  have hone : Writes [⟨.number, "1", false, false⟩] [.number "1" (.point 0)] := .number rfl
  have htwo : Writes [⟨.number, "2", true, false⟩] [.number "2" (.point 0)] := .number rfl
  have hleft := @Writes.dynamic ⟨.identifier, "A", true, false⟩ (.ofSymbol .less false)
    (.ofSymbol .greater false) _ _ none none (.point 0) rfl rfl rfl hone (fun h => h) rfl
  have hright := @Writes.unary (.ofSymbol .minus true) _ _ .neg (.point 0) rfl htwo (by simp)
  have hop : BinaryOp.pow.Written [.ofSymbol .caret true] := .mark rfl rfl rfl
  refine ⟨_, ⟨.binary hleft hop hright (by simp [Word.ofSymbol]), ?_, by simp⟩, ?_⟩
  · simp only [List.cons_append, List.nil_append, List.forall_mem_cons, List.not_mem_nil]
    exact ⟨⟨.identifier (by decide) (by simp) (by decide), rfl⟩, Word.inline_ofSymbol _ _,
      ⟨.digits (by decide) (by simp), rfl⟩, Word.inline_ofSymbol _ _, Word.inline_ofSymbol _ _,
      Word.inline_ofSymbol _ _, ⟨.digits (by decide) (by simp), rfl⟩, by simp⟩
  · decide

/-- The sign stays on the exponent, and the `>` closes the reference. -/
theorem expression_round_trip_power : (parse "X = A<1> ^ - 2").diagnostics = [] ∧
    (parse "X = A<1> ^ - 2").program.items.map Item.plain =
      [.statement ⟨.assignment (.name "X" (.point 0)) signedPower, .point 0⟩] :=
  (expression_round_trip signedPower signedPower_canonical).2 "A<1> ^ - 2" signedPower_rendering

end PickSyntax
