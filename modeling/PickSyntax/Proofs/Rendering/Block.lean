import PickSyntax.Proofs.Rendering.Plan

/-!
# Headers and bodies that are read back

The parsers of the block statements, each at the tokens of a header, a body or a terminator
that stands on lines of its own. What a body holds enters only as `ItemsRead`, a property of
its tokens alone: they read as the same items in every statement list, whichever blocks are
open around it. The blocks matter at a terminator, and there `Closing` asks only about the
innermost one.

Where a lemma is also of use in a program with faults, it is about `Records`, and leaves open
what the bodies record.
-/
namespace PickSyntax.Parser

/-- These tokens are left, and no comment is. -/
structure State.Before (s : State) (ts : List Token) : Prop where
  rest : s.rest = ts
  comments : s.comments = []

namespace State.Before
variable {s s' : State} {t : Token} {ts rest : List Token}

theorem after (h : s.Before (ts ++ rest)) (ht : s.Took ts s') : s'.Before rest :=
  ⟨ht.rest_eq h.rest, ht.comments.trans h.comments⟩

theorem past (h : s.Before (t :: rest)) (ht : s.Took [t] s') : s'.Before rest :=
  ⟨ht.rest_one h.rest, ht.comments.trans h.comments⟩

theorem still (h : s.Before rest) (ht : s.Took [] s') : s'.Before rest :=
  ⟨ht.rest_eq h.rest, ht.comments.trans h.comments⟩

end State.Before
end PickSyntax.Parser

namespace PickSyntax

/-- The branches without their byte ranges. -/
def Clause.plain (c : Clause) : Clause := c.relocate fun _ => 0

theorem Clause.plain_block (is : List Item) (js : Option (List Item)) (layout : ClauseLayout) :
    (Clause.mk (some is) js layout).plain =
      ⟨some (is.map Item.plain), js.map (List.map Item.plain), layout⟩ := by
  rw [Clause.plain, Clause.relocate, Item.relocateAll?_eq_map, Item.relocateAll?_eq_map]
  rfl

theorem Form.plain_ifThen (e : Expr) (c : Clause) :
    (Form.ifThen e c).plain = .ifThen e.plain c.plain := by
  rw [Form.plain, Form.relocate]
  rfl

theorem Form.plain_forNext (counter : String) (start limit : Expr) (step : Option Expr)
    (guard : Option LoopGuard) (body : List Item) (next : Option String) :
    (Form.forNext counter start limit step guard body next).plain =
      .forNext counter start.plain limit.plain (step.map Expr.plain)
        (guard.map (LoopGuard.relocate fun _ => 0)) (body.map Item.plain) next := by
  rw [Form.plain, Form.relocate, Item.relocateAll_eq_map, Expr.relocate?_eq_map]
  rfl

/-- One `CASE` without its byte ranges. -/
def CaseArm.plain (c : CaseArm) : CaseArm := c.relocate fun _ => 0

theorem CaseArm.plain_mk (e : Expr) (is : List Item) (range : Span) :
    (CaseArm.mk e is range).plain = ⟨e.plain, is.map Item.plain, .point 0⟩ := by
  rw [CaseArm.plain, CaseArm.relocate, Item.relocateAll_eq_map]
  rfl

theorem Form.plain_beginCase (cs : List CaseArm) :
    (Form.beginCase cs).plain = .beginCase (cs.map CaseArm.plain) := by
  rw [Form.plain, Form.relocate, CaseArm.relocateAll_eq_map]
  rfl

theorem Form.plain_loop (before after : List Item) (guard : Option LoopGuard) :
    (Form.loop before guard after).plain = .loop (before.map Item.plain)
      (guard.map (LoopGuard.relocate fun _ => 0)) (after.map Item.plain) := by
  rw [Form.plain, Form.relocate, Item.relocateAll_eq_map, Item.relocateAll_eq_map]
  rfl

namespace Phrase

open PickSyntax.Parser PickSyntax.Grammar

theorem map_word {p : Phrase} {ts : List Token} (hts : ts.map Token.laid = p.words) :
    ts.map Token.word = p.words :=
  map_word_of_laid hts fun w hw => (p.inWords.2.1 w hw).lineStart

theorem reads (p : Phrase) : Reads p.words p.expr :=
  (reads_of_writes p.inWords.1 p.inWords.2.1 (by simpa using p.ranked) (by simp)).single

theorem gives {p : Phrase} {s : State} {ts rest : List Token}
    (hts : ts.map Token.laid = p.words) (hs : s.Before (ts ++ rest)) (he : Ends s.angled rest) :
    Gives expression s ts (·.plain = p.expr.plain) :=
  p.reads.gives (map_word hts) hs.rest he

end Phrase

namespace Grammar

open PickSyntax.Parser

/-- A line ends here, and the next one, if any, begins with no symbol. -/
def LineBreak (rest : List Token) : Prop :=
  ∀ t ∈ rest.head?, t.lineStart = true ∧ ∀ y, t.kind ≠ .symbol y

namespace LineBreak
variable {s : State} {t : Token} {rest : List Token} {k : Keyword}

theorem nil : LineBreak [] := by simp [LineBreak]

theorem cons (hl : t.lineStart = true) (hk : ∀ y, t.kind ≠ .symbol y) : LineBreak (t :: rest) := by
  rintro _ ⟨⟩
  exact ⟨hl, hk⟩

theorem keyword (ht : t.laid = (Word.ofKeyword k).leading) : LineBreak (t :: rest) := by
  refine cons (congrArg Word.lineStart ht) fun y => ?_
  rw [show t.kind = .keyword k from congrArg Word.kind ht]
  simp

theorem lineEnds (h : LineBreak rest) : LineEnds rest := fun t ht => (h t ht).1

theorem ends (h : LineBreak rest) (angled : Bool) : Ends angled rest := by
  cases rest with
  | nil => exact ends_nil
  | cons t rest => exact ends_line (h t rfl).1 (h t rfl).2

theorem onLine (h : LineBreak rest) (hs : s.Before rest) : s.onLine = false := by
  cases rest with
  | nil => simp [State.onLine, hs.rest]
  | cons t rest => simp [State.onLine, hs.rest, (h t rfl).1]

theorem isAtOnLine (h : LineBreak rest) (hs : s.Before rest) (k : TokenKind) :
    s.isAtOnLine k = false := by
  simp [State.isAtOnLine, h.onLine hs]

theorem nameNext (h : LineBreak rest) (hs : s.Before rest) : s.nameNext = false := by
  cases rest with
  | nil => simp [State.nameNext, hs.rest]
  | cons t rest => simp [State.nameNext, hs.rest, (h t rfl).1]

end LineBreak

/-- An `END` before these tokens is not the first word of `END CASE`. -/
def Lone (rest : List Token) : Prop :=
  ∀ t ∈ rest.head?, t.lineStart = true ∨ t.kind ≠ .keyword .CASE

theorem LineBreak.lone {rest : List Token} (h : LineBreak rest) : Lone rest :=
  fun t ht => .inl (h t ht).1

theorem Lone.atLoneEnd {s : State} {t : Token} {rest : List Token} (h : Lone rest)
    (hr : s.rest = t :: rest) (hk : t.kind = .keyword .END) : s.atLoneEnd = true := by
  have hat : s.isAt (.keyword .END) = true := by simp [State.isAt, State.kind?, hr, hk]
  cases rest with
  | nil => simp [State.atLoneEnd, hat, State.isBeforeKeyword, hr]
  | cons u rest => rcases h u rfl with hu | hu <;>
      simp [State.atLoneEnd, hat, State.isBeforeKeyword, hr, hu]

section Parts
variable {s : State} {t u : Token} {ts us rest : List Token} {js : List Item} {fs : List Fault}

/-- The word of a guard and its condition, on whatever line they stand. -/
theorem loopGuard_gives {g : Guard} (hts : ts.map Token.laid = g.condition.words)
    (hs : s.Before (t :: (ts ++ rest))) (he : ∀ angled, Ends angled rest) :
    Gives (loopGuard g.sense) s (t :: ts) (·.relocate (fun _ => 0) = g.plain) := by
  refine (Gives.skipOne hs.rest).bind fun _ s₁ h₁ _ => ?_
  exact (Phrase.gives hts (hs.past h₁) (he _)).map fun v hv => congrArg (LoopGuard.mk g.sense) hv

theorem guardSense?_keyword {g : GuardSense} (hr : s.rest = t :: rest)
    (hk : t.kind = .keyword g.keyword) : guardSense? s = some g := by
  cases g <;> simp_all [guardSense?, State.kind?, GuardSense.keyword]

/-- Every statement list reads the tokens as these items. -/
structure ItemsRead (ts : List Token) (js : List Item) : Prop where
  gives : ∀ {γ : Type} {step : List Item → Parser (Step (List Item) γ)} {s : State}
    {rest : List Token}, ItemStep s.blocks step → s.Before (ts ++ rest) → LineBreak rest →
      ListRecords step s ts [] js

theorem ItemsRead.nil : ItemsRead [] [] where
  gives _ _ _ := .nil

theorem ItemsRead.append {ks : List Item} (h : ItemsRead ts js) (k : ItemsRead us ks)
    (hl : ∀ rest, LineBreak rest → LineBreak (us ++ rest)) : ItemsRead (ts ++ us) (js ++ ks) := by
  refine ⟨fun {γ step s rest} hstep hs hrest => ?_⟩
  rw [List.append_assoc] at hs
  exact (h.gives hstep hs (hl rest hrest)).append fun s' h' =>
    k.gives (h'.blocks ▸ hstep) (hs.after h') hrest

theorem opensItem_of_isName {k : TokenKind} (h : k.isName = true) : opensItem k = true := by
  cases k <;> simp_all [TokenKind.isName, opensItem]

theorem not_symbol_of_opensItem {k : TokenKind} (h : opensItem k = true) (y : Symbol) :
    k ≠ .symbol y := by
  rintro rfl
  cases h

/-- A statement on lines of its own. -/
theorem ItemsRead.single {f : Form} (hk : opensItem t.kind = true)
    (h : ∀ {s rest}, s.Before (t :: (us ++ rest)) → s.begun = false → LineBreak rest →
      Gives (form statement t) s (t :: us) (·.plain = f)) :
    ItemsRead (t :: us) [.statement ⟨f, .point 0⟩] := by
  refine ⟨fun {γ step s rest} hstep hs hrest => ?_⟩
  have hform : Gives (form statement t) { s with begun := false } (t :: us) (·.plain = f) :=
    h ⟨hs.rest, hs.comments⟩ rfl hrest
  exact hstep.statement hs.rest hs.rest hs.comments hk hrest.lineEnds (by simp)
    (statement_gives (s := { s with begun := false }) hs.rest hform).records

theorem form_of_keyword {st : Parser Statement} {k : Keyword} (hk : t.kind = .keyword k) :
    form st t = keywordForm st k t := by
  simp [form, hk]

/-- A statement that a keyword leads, in a list that goes on. -/
theorem ItemStep.led {γ : Type} {step : List Item → Parser (Step (List Item) γ)} {k : Keyword}
    {p : Token → Parser Form} {f : Form} (hstep : ItemStep s.blocks step)
    (ht : t.laid = (Word.ofKeyword k).leading) (hk : opensItem (.keyword k) = true)
    (hp : keywordForm Grammar.statement k t = Grammar.led p) (hs : s.Before (t :: (us ++ rest)))
    (hrest : LineBreak rest)
    (h : ∀ s', State.Took { s with begun := false } [t] s' → Records (p t) s' us fs (·.plain = f)) :
    ListRecords step s (t :: us) fs [.statement ⟨f, .point 0⟩] := by
  have hkind : t.kind = .keyword k := congrArg Word.kind ht
  have hform : Records (form Grammar.statement t) { s with begun := false } (t :: us) fs
      (·.plain = f) := by
    rw [form_of_keyword hkind, hp]
    refine (Gives.next (s := { s with begun := false }) hs.rest).bind_records fun v s₁ h₁ hv => ?_
    rw [hv]
    exact h s₁ h₁
  exact hstep.statement hs.rest hs.rest hs.comments (by rwa [hkind]) hrest.lineEnds (by simp)
    (statement_records (s := { s with begun := false }) hs.rest hform)

theorem ItemsRead.led {k : Keyword} {p : Token → Parser Form} {f : Form}
    (ht : t.laid = (Word.ofKeyword k).leading) (hk : opensItem (.keyword k) = true)
    (hp : keywordForm statement k t = Grammar.led p)
    (h : ∀ {s rest}, s.Before (us ++ rest) → LineBreak rest → Gives (p t) s us (·.plain = f)) :
    ItemsRead (t :: us) [.statement ⟨f, .point 0⟩] where
  gives hstep hs hrest := hstep.led ht hk hp hs hrest fun _ h' =>
    (h ⟨h'.rest_one hs.rest, h'.comments.trans hs.comments⟩ hrest).records

theorem commentItems_run (hc : s.comments = []) : commentItems.run s = (some [], s) := by
  have hplaced := placed_of_comments hc
  rw [placed, hc] at hplaced
  simp only [commentItems, pendingComments, run_bind, hc, List.takeWhile_nil, List.dropWhile_nil,
    List.map_nil, run_pure] at hplaced ⊢
  rw [hplaced]

theorem acceptAnywhere_run {k : TokenKind} (h : s.isAt k = false) :
    (acceptAnywhere k).run s = (some false, s) := by
  simp [acceptAnywhere, run_bind, h]

/-- No block closes where a statement begins. -/
theorem closes_of_opensItem (hr : s.rest = t :: us) (hk : opensItem t.kind = true)
    (block : Block) : closes s block = false := by
  simp only [closes, State.kind?, hr, List.head?_cons, Option.map_some, State.atLoneEnd,
    State.atEndCase, State.isAt]
  cases hkind : t.kind with
  | keyword k =>
    rw [hkind] at hk
    cases k <;> cases block <;> first | rfl | cases hk
  | _ => rfl

theorem bodyStep_takes (block : Block) (outer : List Block) :
    ItemStep (block :: outer) (bodyStep statement block) where
  advances := bodyStep_advances block
  takes := by
    intro items s t us hb hr hc hk
    have hat : s.isAt (.symbol .semicolon) = false := by
      simp [State.isAt, State.kind?, hr, not_symbol_of_opensItem hk]
    -- The enclosing blocks are any list: none of them closes where a statement begins.
    have hany : closesAny s outer = false := by
      simp [closesAny, closes_of_opensItem hr hk]
    rw [bodyStep, run_bind_some (commentItems_run hc), run_bind_some (acceptAnywhere_run hat)]
    simp [run_bind, run_enclosing hb, hr, closes_of_opensItem hr hk, hany]

/-- How a body ends before the next token, if it does. -/
def endOf? (block : Block) (s : State) : Option BodyEnd :=
  if closes s block then some .closed
  else if closesAny s s.blocks.tail then some .interrupted
  else none

/-- A body up to the token that ends it, with what is recorded inside. -/
theorem body_records {block : Block} {stop : BodyEnd}
    (h : ListRecords (bodyStep statement block) { s with blocks := block :: s.blocks } ts fs js)
    (hs : s.Before (ts ++ t :: rest)) (hk : ∀ y, t.kind ≠ .symbol y)
    (hstop : ∀ s' : State, s'.rest = t :: rest → s'.blocks = block :: s.blocks →
      endOf? block s' = some stop) :
    Records (body statement block) s ts fs fun r => ∃ is, r = (is, stop) ∧ is.map Item.plain = js := by
  refine .inBlock ?_
  obtain ⟨is, s', hrun, ht, hf, his⟩ := h []
  have hs' : s'.Before (t :: rest) := ⟨ht.rest_eq hs.rest, ht.comments.trans hs.comments⟩
  have hend := hstop s' hs'.rest ht.blocks
  -- The token that ends the block is no separator, so the last round comes to it.
  have hat : s'.isAt (.symbol .semicolon) = false := by simp [State.isAt, State.kind?, hs'.rest, hk]
  refine ⟨(is, stop), s', hrun.trans ?_, ht, hf, is, rfl, his⟩
  rw [loop_run, bodyStep, run_bind_some (commentItems_run hs'.comments),
    run_bind_some (acceptAnywhere_run hat)]
  unfold endOf? at hend
  by_cases hcloses : closes s' block = true
  · obtain rfl : BodyEnd.closed = stop := by simpa [hcloses] using hend
    simp [run_bind, hs'.rest, hcloses]
  · obtain ⟨hany, rfl⟩ : closesAny s' s'.blocks.tail = true ∧ BodyEnd.interrupted = stop := by
      simpa [hcloses] using hend
    have hblocks : s'.blocks = block :: s.blocks := ht.blocks
    rw [hblocks, List.tail_cons] at hany
    simp [run_bind, run_enclosing hblocks, hs'.rest, hcloses, hany]

/-- A terminator of the block begins the next line. -/
structure Closing (block : Block) (rest : List Token) : Prop where
  lineBreak : LineBreak rest
  closed : ∀ {s : State}, s.rest = rest → closes s block = true

/-- A body up to its terminator. -/
theorem body_records_closed {block : Block}
    (h : ListRecords (bodyStep statement block) { s with blocks := block :: s.blocks } ts fs js)
    (hs : s.Before (ts ++ rest)) (hc : Closing block rest) :
    Records (body statement block) s ts fs fun r =>
      ∃ is, r = (is, .closed) ∧ is.map Item.plain = js := by
  obtain ⟨t, us, hr, -⟩ := rest_of_closes (hc.closed (s := { s with rest := rest }) rfl)
  obtain rfl : rest = t :: us := hr
  exact body_records h hs (hc.lineBreak t rfl).2 fun s' hr _ => by simp [endOf?, hc.closed hr]

theorem body_gives {block : Block} (h : ItemsRead ts js) (hs : s.Before (ts ++ rest))
    (hc : Closing block rest) : Gives (body statement block) s ts fun r =>
      ∃ is, r = (is, .closed) ∧ is.map Item.plain = js :=
  gives_iff_records.mpr (body_records_closed
    (h.gives (bodyStep_takes block _) ⟨hs.rest, hs.comments⟩ hc.lineBreak) hs hc)

/-- The words that close a block whatever follows them. -/
def closers : Block → List Keyword
  | .thenBody => [.ELSE]
  | .elseBody => []
  | .forBody => [.NEXT]
  | .loopBefore => [.WHILE, .UNTIL, .REPEAT]
  | .loopAfter => [.REPEAT]
  | .caseBody => [.CASE]

theorem Closing.of_closers {k : Keyword} {block : Block}
    (ht : t.laid = (Word.ofKeyword k).leading) (hk : k ∈ closers block) :
    Closing block (t :: rest) := by
  refine ⟨.keyword ht, fun {s} hr => ?_⟩
  have hkind : t.kind = .keyword k := congrArg Word.kind ht
  cases block <;> simp_all [closers, closes, State.kind?, or_assoc]

theorem Closing.lone_end {block : Block} (ht : t.laid = (Word.ofKeyword .END).leading)
    (hrest : Lone rest) (hb : block = .thenBody ∨ block = .elseBody) :
    Closing block (t :: rest) := by
  refine ⟨.keyword ht, fun {s} hr => ?_⟩
  have hkind : t.kind = .keyword .END := congrArg Word.kind ht
  rcases hb with rfl | rfl <;> simp [closes, State.kind?, hr, hkind, hrest.atLoneEnd hr hkind]

theorem atEndCase_of_rest (hr : s.rest = t :: u :: rest)
    (ht : t.laid = (Word.ofKeyword .END).leading) (hu : u.laid = .ofKeyword .CASE) :
    s.atEndCase = true := by
  have hkind : t.kind = .keyword .END := congrArg Word.kind ht
  have hkind' : u.kind = .keyword .CASE := congrArg Word.kind hu
  have hline : u.lineStart = false := congrArg Word.lineStart hu
  simp [State.atEndCase, State.isAt, State.kind?, State.isBeforeKeyword, hr, hkind, hkind', hline]

theorem Closing.end_case (ht : t.laid = (Word.ofKeyword .END).leading)
    (hu : u.laid = .ofKeyword .CASE) : Closing .caseBody (t :: u :: rest) := by
  refine ⟨.keyword ht, fun {s} hr => ?_⟩
  have hkind : t.kind = .keyword .END := congrArg Word.kind ht
  simp [closes, State.kind?, hr, hkind, atEndCase_of_rest hr ht hu]

section Branches
variable {owner : Owner}

/-- The block after `ELSE` and its `END`. -/
theorem elseBlock_gives (h : ItemsRead ts js) (hs : s.Before (ts ++ t :: rest))
    (ht : t.laid = (Word.ofKeyword .END).leading) (hrest : LineBreak rest) :
    Gives (elseBlock statement owner) s (ts ++ [t]) (·.map Item.plain = js) := by
  refine (body_gives h hs (.lone_end ht hrest.lone (.inr rfl))).bind fun r s₁ h₁ hr => ?_
  obtain ⟨items, rfl, hitems⟩ := hr
  exact (Gives.skipOne (hs.after h₁).rest).map fun _ _ => hitems

/-- A block that `END` closes, with no other branch. -/
theorem thenBlock_records (h : Records (body statement .thenBody) s ts fs fun r =>
      ∃ is, r = (is, .closed) ∧ is.map Item.plain = js) (hs : s.Before (ts ++ t :: rest))
    (ht : t.kind = .keyword .END) (hrest : LineBreak rest) :
    Records (thenBlock statement owner) s (ts ++ [t]) fs (·.plain = ⟨some js, none, .block⟩) := by
  refine h.bind_gives fun r s₁ h₁ hr => ?_
  obtain ⟨items, rfl, hitems⟩ := hr
  have hs₁ := hs.after h₁
  refine .look ?_
  simp only [if_true, hrest.lone.atLoneEnd hs₁.rest ht]
  refine (Gives.skipOne hs₁.rest).bind_nil fun _ s₂ h₂ _ => ?_
  refine (Gives.reject (hrest.isAtOnLine (hs₁.past h₂) _)).bind_nil fun b s₃ _ hb => ?_
  subst hb
  exact .pure (by rw [Clause.plain_block, hitems, Option.map_none])

theorem thenBlock_gives (h : ItemsRead ts js) (hs : s.Before (ts ++ t :: rest))
    (ht : t.laid = (Word.ofKeyword .END).leading) (hrest : LineBreak rest) :
    Gives (thenBlock statement owner) s (ts ++ [t]) (·.plain = ⟨some js, none, .block⟩) :=
  gives_iff_records.mpr (thenBlock_records
    (body_gives h hs (.lone_end ht hrest.lone (.inl rfl))).records hs (congrArg Word.kind ht) hrest)

/-- Two branches with `ELSE` between them. -/
theorem thenBlock_gives_else {ks : List Item} (h : ItemsRead ts js) (k : ItemsRead us ks)
    (hs : s.Before (ts ++ t :: (us ++ u :: rest)))
    (ht : t.laid = (Word.ofKeyword .ELSE).leading) (hu : u.laid = (Word.ofKeyword .END).leading)
    (hrest : LineBreak rest) : Gives (thenBlock statement owner) s (ts ++ t :: (us ++ [u]))
      (·.plain = ⟨some js, some ks, .block⟩) := by
  refine (body_gives h hs (.of_closers ht (by simp [closers]))).bind fun r s₁ h₁ hr => ?_
  obtain ⟨items, rfl, hitems⟩ := hr
  have hs₁ := hs.after h₁
  have hend : s₁.atLoneEnd = false := by
    have hk : t.kind = .keyword .ELSE := congrArg Word.kind ht
    simp [State.atLoneEnd, State.isAt, State.kind?, hs₁.rest, hk]
  refine .look ?_
  simp only [hend]
  refine (Gives.skipOne hs₁.rest).bind fun _ s₂ h₂ _ => ?_
  refine (elseBlock_gives k (hs₁.past h₂) hu hrest).map fun others hothers => ?_
  rw [Clause.plain_block, hitems, Option.map_some, hothers]

/-- Two branches with `END ELSE` between them. -/
theorem thenBlock_gives_end_else {v : Token} {ks : List Item} (h : ItemsRead ts js)
    (k : ItemsRead us ks) (hs : s.Before (ts ++ t :: v :: (us ++ u :: rest)))
    (ht : t.laid = (Word.ofKeyword .END).leading) (hv : v.laid = .ofKeyword .ELSE)
    (hu : u.laid = (Word.ofKeyword .END).leading) (hrest : LineBreak rest)
    (hother : LineBreak (us ++ u :: rest)) :
    Gives (thenBlock statement owner) s (ts ++ t :: v :: (us ++ [u]))
      (·.plain = ⟨some js, some ks, .block⟩) := by
  have hk : v.kind = .keyword .ELSE := congrArg Word.kind hv
  have hlone : Lone (v :: (us ++ u :: rest)) := by simp [Lone, hk]
  refine (body_gives h hs (.lone_end ht hlone (.inl rfl))).bind fun r s₁ h₁ hr => ?_
  obtain ⟨items, rfl, hitems⟩ := hr
  have hs₁ := hs.after h₁
  refine .look ?_
  simp only [if_true, hlone.atLoneEnd hs₁.rest (congrArg Word.kind ht)]
  refine (Gives.skipOne hs₁.rest).bind fun _ s₂ h₂ _ => ?_
  have hs₂ := hs₁.past h₂
  refine (Gives.accept hs₂.rest hk (congrArg Word.lineStart hv)).bind fun b s₃ h₃ hb => ?_
  subst hb
  have hs₃ := hs₂.past h₃
  have hbranch : Gives (elseBranch statement owner) s₃ (us ++ [u])
      fun r => r.1.map Item.plain = ks := by
    refine .look ?_
    rw [hother.onLine hs₃]
    exact (elseBlock_gives k hs₃ hu hrest).map fun _ hothers => hothers
  refine hbranch.map fun r hothers => ?_
  rw [Clause.plain_block, hitems, Option.map_some, hothers]

/-- What stands after a condition and its `THEN`. -/
theorem requiredClause_records {clause : Clause} (hs : s.Before (u :: (us ++ rest)))
    (hu : u.laid = .ofKeyword .THEN) (hbreak : LineBreak (us ++ rest))
    (h : ∀ {s'}, s.Took [u] s' → s'.Before (us ++ rest) →
      Records (thenBlock statement owner) s' us fs (·.plain = clause)) :
    Records (requiredClause statement owner) s (u :: us) fs (·.plain = clause) := by
  have hclause : Records (clause? statement owner) s (u :: us) fs
      fun o => ∃ c, o = some c ∧ c.plain = clause := by
    refine (Gives.accept hs.rest (congrArg Word.kind hu) (congrArg Word.lineStart hu)).bind_records
      fun b s₁ h₁ hb => ?_
    subst hb
    have hs₁ := hs.past h₁
    refine .look ?_
    rw [hbreak.onLine hs₁]
    exact (h h₁ hs₁).map fun c hc => ⟨c, rfl, hc⟩
  rw [← List.append_nil (u :: us)]
  refine hclause.bind_gives fun o s₁ _ ho => ?_
  obtain ⟨c, rfl, hc⟩ := ho
  exact .pure hc

/-- The header of an `IF`, before whatever its branches come to. -/
theorem ifThen_records {p : Phrase} {clause : Clause} (hs : s.Before (ts ++ u :: (us ++ rest)))
    (hts : ts.map Token.laid = p.words) (hu : u.laid = .ofKeyword .THEN)
    (hbreak : LineBreak (us ++ rest))
    (h : ∀ {s'}, s.Took (ts ++ [u]) s' → s'.Before (us ++ rest) →
      Records (thenBlock statement ⟨"IF", t.span⟩) s' us fs (·.plain = clause)) :
    Records (ifThen statement t) s (ts ++ u :: us) fs
      (·.plain = .ifThen p.expr.plain clause) := by
  refine (Phrase.gives hts hs (ends_keyword (congrArg Word.kind hu) rfl)).bind_records
    fun v s₁ h₁ hv => ?_
  refine (requiredClause_records (hs.after h₁) hu hbreak fun h₂ hs' =>
    h (h₁.trans h₂) hs').map fun c hc => ?_
  rw [Form.plain_ifThen, hv, hc]

end Branches

/-- No expression goes on over a guard or the end of the line, and neither is a step. -/
theorem guard_ends {guard : Option Guard} (hts : ts.map Token.laid = guard.elim [] Guard.words)
    (hrest : LineBreak rest) : (∀ angled, Ends angled (ts ++ rest)) ∧
      ∀ s : State, s.Before (ts ++ rest) → s.isAtOnLine (.keyword .STEP) = false := by
  cases guard with
  | none =>
    obtain rfl := List.map_eq_nil_iff.mp hts
    exact ⟨hrest.ends, fun s hs => hrest.isAtOnLine hs _⟩
  | some g =>
    obtain ⟨t, us, rfl, ht, -⟩ := List.map_eq_cons_iff.mp hts
    have hk : t.kind = .keyword g.sense.keyword := congrArg Word.kind ht
    refine ⟨fun angled => ends_keyword hk ?_, fun s hs => ?_⟩
    · cases g.sense <;> rfl
    · cases hg : g.sense <;>
        simp [State.isAtOnLine, State.isAt, State.kind?, hs.rest, hk, hg, GuardSense.keyword]

theorem step_ends {step : Option Phrase}
    (hts : ts.map Token.laid = step.elim [] fun p => .ofKeyword .STEP :: p.words)
    (hrest : ∀ angled, Ends angled rest) (angled : Bool) : Ends angled (ts ++ rest) := by
  cases step with
  | none =>
    obtain rfl := List.map_eq_nil_iff.mp hts
    exact hrest angled
  | some p =>
    obtain ⟨t, us, rfl, ht, -⟩ := List.map_eq_cons_iff.mp hts
    exact ends_keyword (congrArg Word.kind ht) rfl

theorem step_gives {step : Option Phrase}
    (hts : ts.map Token.laid = step.elim [] fun p => .ofKeyword .STEP :: p.words)
    (hs : s.Before (ts ++ rest)) (hends : ∀ angled, Ends angled rest)
    (hrest : ∀ s : State, s.Before rest → s.isAtOnLine (.keyword .STEP) = false) :
    Gives (afterKeyword? .STEP expression) s ts
      fun o => o.map Expr.plain = step.map fun p => p.expr.plain := by
  cases step with
  | none =>
    obtain rfl := List.map_eq_nil_iff.mp hts
    refine (Gives.withoutKeyword (hrest s hs)).mono fun o ho => ?_
    rw [ho]
    rfl
  | some p =>
    obtain ⟨t, us, rfl, ht, hus⟩ := List.map_eq_cons_iff.mp hts
    refine (Gives.afterKeyword hs.rest (congrArg Word.kind ht) (congrArg Word.lineStart ht)
      fun s' h' => Phrase.gives hus (hs.past h') (hends _)).mono fun o ho => ?_
    obtain ⟨v, rfl, hv⟩ := ho
    exact congrArg some hv

theorem forGuard_gives {guard : Option Guard}
    (hts : ts.map Token.laid = guard.elim [] Guard.words) (hs : s.Before (ts ++ rest))
    (hrest : LineBreak rest) : Gives forGuard s ts
      fun o => o.map (LoopGuard.relocate fun _ => 0) = guard.map Guard.plain := by
  refine .look ?_
  cases guard with
  | none =>
    obtain rfl := List.map_eq_nil_iff.mp hts
    rw [hrest.onLine hs]
    cases guardSense? s <;> exact .pure rfl
  | some g =>
    obtain ⟨t, us, rfl, ht, hus⟩ := List.map_eq_cons_iff.mp hts
    have hline : t.lineStart = false := congrArg Word.lineStart ht
    have honline : s.onLine = true := by simp [State.onLine, hs.rest, hline]
    simp only [guardSense?_keyword hs.rest (congrArg Word.kind ht), honline, if_true]
    exact (loopGuard_gives hus hs hrest.ends).map fun v hv => congrArg some hv

/-- The header of a `FOR`, before whatever its body comes to. -/
theorem forNext_records {counter : Name} {start limit : Phrase} {step : Option Phrase}
    {guard : Option Guard} {Q : Form → Prop}
    (hts : ts.map Token.laid = counter.word :: .ofSymbol .equals true :: (start.words ++
      .ofKeyword .TO :: (limit.words ++ (step.elim [] (fun p => .ofKeyword .STEP :: p.words) ++
        guard.elim [] Guard.words))))
    (hs : s.Before (ts ++ rest)) (hrest : LineBreak rest)
    (h : ∀ {v w i g s'}, s.Took ts s' → v.plain = start.expr.plain → w.plain = limit.expr.plain →
      i.map Expr.plain = step.map (fun p => p.expr.plain) →
      g.map (LoopGuard.relocate fun _ => 0) = guard.map Guard.plain → Records (do
        let (items, stop) ← body statement .forBody
        if stop == .closed then return .forNext counter.text v w i g items (← nextName)
        else
          reportUnclosed ⟨"FOR", t.span⟩ "NEXT"
          return .forNext counter.text v w i g items none) s' us fs Q) :
    Records (forNext statement t) s (ts ++ us) fs Q := by
  obtain ⟨n, ts, rfl, hn, hts⟩ := List.map_eq_cons_iff.mp hts
  obtain ⟨q, ts, rfl, hq, hts⟩ := List.map_eq_cons_iff.mp hts
  obtain ⟨as, ts, rfl, has, hts⟩ := List.map_eq_append_iff.mp hts
  obtain ⟨o, ts, rfl, ho, hts⟩ := List.map_eq_cons_iff.mp hts
  obtain ⟨ls, ts, rfl, hls, hts⟩ := List.map_eq_append_iff.mp hts
  obtain ⟨cs, gs, rfl, hcs, hgs⟩ := List.map_eq_append_iff.mp hts
  simp only [List.append_assoc, List.cons_append] at hs ⊢
  obtain ⟨hguard, hstep⟩ := guard_ends hgs hrest
  have hname : n.kind.isName = true := by
    rw [show n.kind = counter.kind from congrArg Word.kind hn]
    exact counter.isName
  refine (Gives.name hs.rest hname (congrArg Word.lineStart hn)).bind_records
    fun _ s₁ h₁ htext => ?_
  rw [htext, show n.text = counter.text from congrArg Word.text hn]
  have hs₁ := hs.past h₁
  refine (Gives.require hs₁.rest (congrArg Word.kind hq) (congrArg Word.lineStart hq)).bind_records
    fun _ s₂ h₂ _ => ?_
  have hs₂ := hs₁.past h₂
  refine (Phrase.gives has hs₂ (ends_keyword (congrArg Word.kind ho) rfl)).bind_records
    fun v s₃ h₃ hv => ?_
  have hs₃ := hs₂.after h₃
  refine (Gives.require hs₃.rest (congrArg Word.kind ho) (congrArg Word.lineStart ho)).bind_records
    fun _ s₄ h₄ _ => ?_
  have hs₄ := hs₃.past h₄
  refine (Phrase.gives hls hs₄ (step_ends hcs hguard _)).bind_records fun w s₅ h₅ hw => ?_
  have hs₅ := hs₄.after h₅
  refine (step_gives hcs hs₅ hguard hstep).bind_records fun i s₆ h₆ hi => ?_
  have hs₆ := hs₅.after h₆
  refine (forGuard_gives hgs hs₆ hrest).bind_records fun g s₇ h₇ hg => ?_
  refine h ?_ hv hw hi hg
  simpa using (((((h₁.trans h₂).trans h₃).trans h₄).trans h₅).trans h₆).trans h₇

/-- The guard of a `LOOP`, with all that follows it. -/
theorem loopRest_gives {owner : Owner} {g : Guard} {v : Token}
    (hts : ts.map Token.laid = g.condition.words)
    (hs : s.Before (t :: (ts ++ u :: (us ++ v :: rest)))) (hu : u.laid = .ofKeyword .DO)
    (h : ItemsRead us js) (hv : v.laid = (Word.ofKeyword .REPEAT).leading) :
    Gives (loopRest statement owner g.sense) s (t :: (ts ++ u :: (us ++ [v])))
      fun r => r.1.map (LoopGuard.relocate fun _ => 0) = some g.plain ∧
        r.2.map Item.plain = js := by
  have hk : u.kind = .keyword .DO := congrArg Word.kind hu
  have hguard := (loopGuard_gives hts hs fun _ => ends_keyword hk rfl).orSkip
  refine hguard.bind fun o s₁ h₁ ho => ?_
  obtain ⟨guard, rfl, hg⟩ := ho
  have hs₁ : s₁.Before (u :: (us ++ v :: rest)) := State.Before.after hs h₁
  refine (Gives.accept hs₁.rest hk (congrArg Word.lineStart hu)).bind fun _ s₂ h₂ _ => ?_
  have hs₂ := hs₁.past h₂
  refine (body_gives h hs₂ (.of_closers hv (by simp [closers]))).bind fun r s₃ h₃ hr => ?_
  obtain ⟨items, rfl, hitems⟩ := hr
  exact (Gives.skipOne (hs₂.after h₃).rest).map fun _ _ => ⟨congrArg some hg, hitems⟩

/-- The word `NEXT` with the name after it. -/
theorem nextName_gives {next : Option Name} (hs : s.Before (t :: (ts ++ rest)))
    (hts : ts.map Token.laid = next.toList.map Name.word) (hrest : LineBreak rest) :
    Gives nextName s (t :: ts) (· = next.map Name.text) := by
  refine (Gives.skipOne hs.rest).bind fun _ s₁ h₁ _ => ?_
  have hs₁ := hs.past h₁
  refine .look ?_
  cases next with
  | none =>
    obtain rfl := List.map_eq_nil_iff.mp hts
    rw [hrest.nameNext hs₁]
    exact .pure rfl
  | some n =>
    obtain ⟨u, rfl, hu⟩ := List.map_eq_singleton_iff.mp hts
    have hk : u.kind = n.kind := congrArg Word.kind hu
    have hline : u.lineStart = false := congrArg Word.lineStart hu
    have hname : s₁.nameNext = true := by simp [State.nameNext, hs₁.rest, hk, hline, n.isName]
    rw [hname]
    refine (Gives.next hs₁.rest).map fun v hv => ?_
    rw [hv]
    exact congrArg some (congrArg Word.text hu)

section Cases
variable {owner : Owner} {cs : List CaseArm} {p : Phrase}

/-- The tokens up to an `END CASE` are read as these clauses, behind any others. -/
structure ArmsRead (ts : List Token) (cs : List CaseArm) : Prop where
  gives : ∀ {owner s rest t u}, s.Before (ts ++ t :: u :: rest) →
    t.laid = (Word.ofKeyword .END).leading → u.laid = .ofKeyword .CASE → ∀ before,
      Gives (loop (caseStep statement owner) ⟨[], before⟩) s (ts ++ [t, u])
        fun r => r.map CaseArm.plain = before.map CaseArm.plain ++ cs

/-- A round of the block begins with no comment and no separator. -/
theorem caseStep_run {before : List CaseArm} {k : Keyword} (hs : s.Before (t :: rest))
    (hk : t.kind = .keyword k) : (caseStep statement owner ⟨[], before⟩).run s =
      (if s.rest.isEmpty then abandonCases owner before
        else if s.atEndCase then do
          skip 2
          return .done before
        else if s.isAt (.keyword .CASE) then caseArmStep statement owner ⟨[], before⟩
        else if closesAny s s.blocks then abandonCases owner before
        else do
          beginStatement
          reportExpected "CASE"
          recover s.rest.length
          return .more ⟨[], before⟩).run s := by
  have hat : s.isAt (.symbol .semicolon) = false := by
    simp [State.isAt, State.kind?, hs.rest, hk]
  rw [caseStep, run_bind_some (commentItems_run hs.comments),
    run_bind_some (acceptAnywhere_run hat)]
  rfl

/-- A round at a `CASE`. -/
theorem caseStep_case {before : List CaseArm} (hs : s.Before (t :: rest))
    (hk : t.kind = .keyword .CASE) : (caseStep statement owner ⟨[], before⟩).run s =
      (caseArmStep statement owner ⟨[], before⟩).run s := by
  have hat : s.isAt (.keyword .CASE) = true := by simp [State.isAt, State.kind?, hs.rest, hk]
  have hend : s.atEndCase = false := by
    simp [State.atEndCase, State.isAt, State.kind?, hs.rest, hk]
  rw [caseStep_run hs hk]
  simp only [hs.rest, List.isEmpty_cons, Bool.false_eq_true, if_false, hend, hat, if_true]

theorem ArmsRead.nil : ArmsRead [] [] := by
  refine ⟨fun {owner s rest t u} hs ht hu before => .done ?_⟩
  have hend : s.atEndCase = true := atEndCase_of_rest hs.rest ht hu
  refine .of_run (caseStep_run hs (congrArg Word.kind ht)) ?_
  simp only [hs.rest, hend, if_true]
  exact (Gives.skipTwo hs.rest).map fun _ _ => ⟨before, rfl, by simp⟩

/-- A clause up to the token that ends its body. -/
theorem caseArm_records {stop : BodyEnd} (hs : s.Before (t :: (ts ++ (us ++ rest))))
    (hts : ts.map Token.laid = p.words) (hbreak : LineBreak (us ++ rest))
    (h : ∀ s', s.Took (t :: ts) s' → Records (body statement .caseBody) s' us fs fun r =>
      ∃ is, r = (is, stop) ∧ is.map Item.plain = js) :
    Records (caseArm statement []) s (t :: (ts ++ us)) fs fun r =>
      ∃ c, r = (some c, stop) ∧ c.plain = ⟨p.expr.plain, js, .point 0⟩ := by
  refine (Gives.next hs.rest).bind_records fun _ s₁ h₁ _ => ?_
  have hs₁ := hs.past h₁
  refine (Phrase.gives hts hs₁ (hbreak.ends _)).orSkip.bind_records fun o s₂ h₂ ho => ?_
  obtain ⟨v, rfl, hv⟩ := ho
  rw [← List.append_nil us]
  refine (h s₂ (h₁.trans h₂)).bind_gives fun r s₃ _ hr => ?_
  obtain ⟨items, rfl, hitems⟩ := hr
  exact .look (.pure ⟨_, rfl, by rw [CaseArm.plain_mk, hv, List.nil_append, hitems]⟩)

/-- A clause up to the next one or to the end of the block. -/
theorem caseArm_gives (hs : s.Before (t :: (ts ++ (us ++ rest))))
    (hts : ts.map Token.laid = p.words) (h : ItemsRead us js) (hbreak : LineBreak (us ++ rest))
    (hc : Closing .caseBody rest) : Gives (caseArm statement []) s (t :: (ts ++ us)) fun r =>
      ∃ c, r = (some c, .closed) ∧ c.plain = ⟨p.expr.plain, js, .point 0⟩ :=
  gives_iff_records.mpr (caseArm_records hs hts hbreak fun _ h' =>
    (body_gives h (State.Before.after (by simpa using hs) h') hc).records)

theorem ArmsRead.cons (ht : t.laid = (Word.ofKeyword .CASE).leading)
    (hts : ts.map Token.laid = p.words) (h : ItemsRead us js) {vs : List Token}
    (hbreak : ∀ rest, LineBreak rest → LineBreak (us ++ rest))
    (hc : ∀ {u v : Token} {rest}, u.laid = (Word.ofKeyword .END).leading →
      v.laid = .ofKeyword .CASE → Closing .caseBody (vs ++ u :: v :: rest))
    (k : ArmsRead vs cs) :
    ArmsRead (t :: (ts ++ us) ++ vs) (⟨p.expr.plain, js, .point 0⟩ :: cs) := by
  refine ⟨fun {owner s rest u v} hs hu hv before => ?_⟩
  have hk : t.kind = .keyword .CASE := congrArg Word.kind ht
  have hclosing : Closing .caseBody (vs ++ u :: v :: rest) := hc hu hv
  simp only [List.append_assoc, List.cons_append] at hs
  have hround : Gives (caseStep statement owner ⟨[], before⟩) s (t :: (ts ++ us)) fun r =>
      ∃ w, r = .more w ∧ ∃ c, w = ⟨[], before ++ [c]⟩ ∧ c.plain = ⟨p.expr.plain, js, .point 0⟩ := by
    refine .of_run (caseStep_case hs hk) ?_
    refine (caseArm_gives hs hts h (hbreak _ hclosing.lineBreak) hclosing).bind_nil
      fun r s₁ _ hr => ?_
    obtain ⟨c, rfl, hplain⟩ := hr
    exact .pure ⟨_, rfl, c, rfl, hplain⟩
  rw [List.append_assoc]
  refine hround.more (by simp) fun w s₁ h₁ hw => ?_
  obtain ⟨c, rfl, hplain⟩ := hw
  have hs₁ : s₁.Before (vs ++ u :: v :: rest) := by
    refine State.Before.after ?_ h₁
    simpa using hs
  refine (k.gives hs₁ hu hv (before ++ [c])).mono fun r hr => ?_
  rw [hr, List.map_append, List.map_singleton, hplain, List.append_assoc, List.singleton_append]

end Cases

end Parts
end Grammar
end PickSyntax
