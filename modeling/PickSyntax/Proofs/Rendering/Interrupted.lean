import PickSyntax.Proofs.Diagnostic.Collector
import PickSyntax.Proofs.Rendering.Inline

/-!
# Blocks that an outer `END` cuts off

Loops and cases that are never closed, one inside the other, in the block of an `IF`. The `END`
of the `IF` ends them all: each records that it lacks its own terminator, keeps what was read of
it and hands the `END` on, so that the faults are found from the inside out.

The induction is on the list of blocks. What it carries, `Interrupts`, asks about the blocks that
are open only that the block of the `IF` be among them; in between there may be any others.
-/
namespace PickSyntax

open PickSyntax.Parser PickSyntax.Grammar

/-- What opens a block that `END` does not close. -/
inductive Opener where
  | forNext (counter : Name)
  | loop
  | beginCase

namespace Opener

def text : Opener → String
  | .forNext counter => "FOR " ++ counter.text ++ " = 1 TO 2\n"
  | .loop => "LOOP\n"
  | .beginCase => "BEGIN CASE\nCASE 1\n"

/-- The block lacks its terminator; its first byte is at `start`. -/
def fault (start : Nat) : Opener → Fault
  | .forNext _ => ⟨.openBlock "FOR" "NEXT", ⟨start, start + 3⟩⟩
  | .loop => ⟨.openBlock "LOOP" "REPEAT", ⟨start, start + 4⟩⟩
  | .beginCase => ⟨.openBlock "BEGIN CASE" "END CASE", ⟨start, start + 10⟩⟩

/-- What is left of the block, up to byte ranges. -/
def form (body : List Item) : Opener → Form
  | .forNext counter =>
    .forNext counter.text (.number "1" (.point 0)) (.number "2" (.point 0)) none none body none
  | .loop => .loop body none []
  | .beginCase => .beginCase [⟨.number "1" (.point 0), body, .point 0⟩]

end Opener

/-- A block without its terminator: how it is opened, and the number of `NULL` lines after that. -/
structure Unclosed where
  opener : Opener
  nulls : Nat

namespace Unclosed

def text (u : Unclosed) : String :=
  u.opener.text ++ String.join (List.replicate u.nulls "NULL\n")

/-- The first block with the others inside it. -/
def items : List Unclosed → List Item
  | [] => []
  | u :: us =>
    [.statement ⟨u.opener.form
      (List.replicate u.nulls (.statement ⟨.bare .null, .point 0⟩) ++ items us), .point 0⟩]

/-- One fault for each block, where the text of the first begins at `start`. -/
def faults (start : Nat) : List Unclosed → List Fault
  | [] => []
  | u :: us => u.opener.fault start :: faults (start + byteSize u.text.toList) us

/-- The blocks in the block of an `IF`, and a line after it. -/
def source (us : List Unclosed) : String :=
  "IF X THEN\n" ++ String.join (us.map text) ++ "END\nY = 1"

end Unclosed

def two : Phrase := .number "2" (.digits (by decide) (by simp))

theorem isName_identifier : TokenKind.isName .identifier = true := rfl

def conditionName : Name :=
  ⟨.identifier, "X", isName_identifier, .identifier (by decide) (by simp) (by decide +kernel)⟩

def targetName : Name :=
  ⟨.identifier, "Y", isName_identifier, .identifier (by decide) (by simp) (by decide +kernel)⟩

open Word in
def Opener.words : Opener → List Word
  | .forNext counter =>
    line (ofKeyword .FOR :: counter.word :: ofSymbol .equals true ::
      (one.words ++ ofKeyword .TO :: two.words))
  | .loop => line [ofKeyword .LOOP]
  | .beginCase =>
    line [ofKeyword .BEGIN, ofKeyword .CASE] ++ line (ofKeyword .CASE :: one.words)

namespace Unclosed

/-- The lines that stand in the block itself. -/
def lines (u : Unclosed) : List Plan := List.replicate u.nulls .null

def words (u : Unclosed) : List Word := u.opener.words ++ wordsOf u.lines

open Word in
def sourceWords (us : List Unclosed) : List Word :=
  line [ofKeyword .IF, conditionName.word, ofKeyword .THEN] ++ (us.flatMap words ++
    (line [ofKeyword .END] ++ (Plan.assign targetName one).words))

end Unclosed

theorem Opener.portable (o : Opener) : Portable o.words := by
  cases o with
  | forNext counter =>
    have hlimit : Portable (.ofKeyword .TO :: two.words) := .keyword (by simp) two.portable
    exact .asLine (.keyword (by simp)
      (counter.portable.append (one.portable.append hlimit).equals))
  | loop => exact .mark (by simp)
  | beginCase =>
    exact (Portable.keyword (by simp) (.keyword (by simp) .nil)).asLine.append
      (one.portable.keyword (by simp)).asLine

/-- The words of an opener begin with a keyword that leads its line. -/
theorem Opener.head (o : Opener) :
    ∃ k ws, o.words = (Word.ofKeyword k).leading :: ws := by
  cases o <;> exact ⟨_, _, rfl⟩

namespace Unclosed

theorem portable (u : Unclosed) : Portable u.words :=
  u.opener.portable.append (portable_wordsOf _)

theorem portable_flatMap (us : List Unclosed) : Portable (us.flatMap words) := by
  induction us with
  | nil => exact .nil
  | cons u us ih => exact u.portable.append ih

theorem portable_sourceWords (us : List Unclosed) : Portable (sourceWords us) :=
  (Portable.keyword (by simp) (conditionName.portable.append
    (.keyword (by simp) .nil))).asLine.append
      ((portable_flatMap us).append ((Portable.mark (by simp)).append (Plan.portable _)))

end Unclosed

/-- The words are the lines of the text, each of which ends. -/
def Lines (ws : List Word) (text : String) : Prop := ink ws ++ ['\n'] = '\n' :: text.toList

namespace Lines
variable {ws vs : List Word} {a b : String}

theorem nil : Lines [] "" := rfl

theorem append (h : Lines ws a) (k : Lines vs b) : Lines (ws ++ vs) (a ++ b) := by
  rw [Lines] at *
  rw [ink_append, List.append_assoc, k, ← List.singleton_append, ← List.append_assoc, h]
  simp

theorem byteSize_eq (h : Lines ws a) : byteSize (ink ws) = byteSize a.toList := by
  have hsize := congrArg byteSize h
  simp only [byteSize_append, byteSize_cons, byteSize_nil] at hsize
  omega

end Lines

theorem lines_nulls (n : Nat) :
    Lines (wordsOf (List.replicate n .null)) (String.join (List.replicate n "NULL\n")) := by
  induction n with
  | zero => exact .nil
  | succ n ih =>
    rw [List.replicate_succ, wordsOf, List.replicate_succ, String.join_cons]
    exact .append rfl ih

theorem Opener.lines_words (o : Opener) : Lines o.words o.text := by
  cases o with
  | forNext counter =>
    simp [Lines, words, text, one, two, Phrase.number, Word.gap, Word.ofKeyword, Word.ofSymbol,
      Name.word, Keyword.spelling, Symbol.char]
  | loop => rfl
  | beginCase => rfl

namespace Unclosed

theorem lines_words (u : Unclosed) : Lines u.words u.text :=
  u.opener.lines_words.append (lines_nulls u.nulls)

theorem lines_flatMap (us : List Unclosed) :
    Lines (us.flatMap words) (String.join (us.map text)) := by
  induction us with
  | nil => exact .nil
  | cons u us ih =>
    rw [List.flatMap_cons, List.map_cons, String.join_cons]
    exact u.lines_words.append ih

theorem write_sourceWords (us : List Unclosed) : write (sourceWords us) = (source us).toList := by
  have hink : ink (line [.ofKeyword .END] ++ (Plan.assign targetName one).words) =
      '\n' :: "END\nY = 1".toList := rfl
  have hlines : ink (us.flatMap words) ++ ['\n'] = '\n' :: _ := lines_flatMap us
  calc write (sourceWords us)
      = "IF X THEN".toList ++ (ink (us.flatMap words) ++ '\n' :: "END\nY = 1".toList) := by
        rw [← hink, ← ink_append]
        rfl
    _ = "IF X THEN".toList ++ ('\n' :: (String.join (us.map text)).toList ++
          "END\nY = 1".toList) := by
        rw [← hlines, List.append_assoc, List.singleton_append]
    _ = (source us).toList := by
        simp [source]

end Unclosed

theorem Token.gap_laid (t : Token) : t.laid.gap = t.word.gap := by
  cases hl : t.lineStart <;> cases hs : t.spaced <;> simp [Word.gap, laid, word, hl, hs]

theorem ink_laid (ts : List Token) : ink (ts.map Token.laid) = ink (ts.map Token.word) := by
  induction ts with
  | nil => rfl
  | cons t ts ih => simp [ih, t.gap_laid]

namespace Standing
variable {start : Nat} {t : Token} {ts us : List Token} {w : Word} {ws : List Word}

/-- The bytes of the first token. -/
theorem span (h : Standing start (t :: ts)) (ht : t.laid = w) : t.span =
    ⟨start + byteSize w.gap, start + byteSize w.gap + byteSize w.text.toList⟩ := by
  subst ht
  rw [t.gap_laid]
  exact h.1

theorem behind (h : Standing start (ts ++ us)) (hts : ts.map Token.laid = ws) :
    Standing (start + byteSize (ink ws)) us := by
  subst hts
  rw [ink_laid]
  exact (standing_append.mp h).2

end Standing

/-- Before a lone `END`, where it closes a block that is open, every statement list reads the
tokens as these items and records these faults. -/
structure Interrupts (ts : List Token) (fs : List Fault) (js : List Item) : Prop where
  records : ∀ {γ : Type} {step : List Item → Parser (Step (List Item) γ)} {s : State} {e : Token}
    {rest : List Token}, ItemStep s.blocks step → e.laid = (Word.ofKeyword .END).leading →
      LineBreak rest → s.Before (ts ++ e :: rest) → .thenBody ∈ s.blocks →
        ListRecords step s ts fs js

section Interrupts
variable {s : State} {t c e : Token} {ts us ps rest : List Token} {fs : List Fault}
variable {js ks : List Item} {p : Phrase}

theorem Interrupts.nil : Interrupts [] [] [] where
  records _ _ _ _ _ := .nil

/-- Items that are complete, before a block that is not. -/
theorem ItemsRead.interrupts (h : ItemsRead ts js) (k : Interrupts us fs ks)
    (hl : ∀ rest, LineBreak rest → LineBreak (us ++ rest)) :
    Interrupts (ts ++ us) fs (js ++ ks) := by
  refine ⟨fun hstep he hrest hs hopen => ?_⟩
  rw [List.append_assoc] at hs
  exact (h.gives hstep hs (hl _ (.keyword he))).append fun s' h' =>
    k.records (h'.blocks ▸ hstep) he hrest (hs.after h') (by rwa [h'.blocks])

/-- Only a block further out ends at the `END`. -/
theorem endOf?_lone_end {block : Block} {outer : List Block}
    (hb : block ≠ .thenBody ∧ block ≠ .elseBody) (hr : s.rest = e :: rest)
    (he : e.kind = .keyword .END) (hrest : Lone rest) (hblocks : s.blocks = block :: outer)
    (hopen : .thenBody ∈ outer) : endOf? block s = some .interrupted := by
  have hlone : s.atLoneEnd = true := hrest.atLoneEnd hr he
  have hcase : s.atEndCase = false := by
    simp only [State.atLoneEnd, Bool.and_eq_true, Bool.not_eq_true'] at hlone
    simp [State.atEndCase, hlone.2]
  have hany : closesAny s s.blocks.tail = true := by
    rw [hblocks, List.tail_cons, closesAny, List.any_eq_true]
    exact ⟨_, hopen, by simp [closes, State.kind?, hr, he, hlone]⟩
  have hcloses : closes s block = false := by
    cases block <;> simp_all [closes, State.kind?]
  simp [endOf?, hcloses, hany]

/-- The body of a block that the `END` does not close. -/
theorem Interrupts.body {block : Block} (h : Interrupts ts fs js)
    (hb : block ≠ .thenBody ∧ block ≠ .elseBody) (he : e.laid = (Word.ofKeyword .END).leading)
    (hrest : LineBreak rest) (hs : s.Before (ts ++ e :: rest)) (hopen : .thenBody ∈ s.blocks) :
    Records (body statement block) s ts fs fun r =>
      ∃ is, r = (is, .interrupted) ∧ is.map Item.plain = js := by
  have hk : e.kind = .keyword .END := congrArg Word.kind he
  refine body_records ?_ hs (by simp [hk]) fun s' hr hblocks =>
    endOf?_lone_end hb hr hk hrest.lone hblocks hopen
  exact h.records (bodyStep_takes block _) he hrest ⟨hs.rest, hs.comments⟩ (by simp [hopen])

theorem Interrupts.led {k : Keyword} {q : Token → Parser Form} {f : Form}
    (ht : t.laid = (Word.ofKeyword k).leading) (hk : opensItem (.keyword k) = true)
    (hq : keywordForm statement k t = Grammar.led q)
    (h : ∀ {s e rest}, e.laid = (Word.ofKeyword .END).leading → LineBreak rest →
      s.Before (us ++ e :: rest) → .thenBody ∈ s.blocks → Records (q t) s us fs (·.plain = f)) :
    Interrupts (t :: us) fs [.statement ⟨f, .point 0⟩] where
  records hstep he hrest hs hopen := hstep.led ht hk hq hs (.keyword he) fun s' h' =>
    h he hrest ⟨h'.rest_one hs.rest, h'.comments.trans hs.comments⟩ (by rwa [h'.blocks])

theorem loop_interrupts (ht : t.laid = (Word.ofKeyword .LOOP).leading)
    (h : Interrupts ts fs js) :
    Interrupts (t :: ts) (fs ++ [⟨.openBlock "LOOP" "REPEAT", t.span⟩])
      [.statement ⟨.loop js none [], .point 0⟩] := by
  refine .led ht rfl rfl fun he hrest hs hopen => ?_
  refine (h.body (by simp) he hrest hs hopen).bind_nil fun r s₁ _ hr => ?_
  obtain ⟨items, rfl, hitems⟩ := hr
  refine (Records.report _).map fun _ _ => ?_
  rw [Form.plain_loop, hitems]
  rfl

theorem forNext_interrupts {counter : Name} {start limit : Phrase}
    (ht : t.laid = (Word.ofKeyword .FOR).leading)
    (hus : us.map Token.laid = counter.word :: .ofSymbol .equals true ::
      (start.words ++ .ofKeyword .TO :: limit.words))
    (h : Interrupts ts fs js) (hl : ∀ rest, LineBreak rest → LineBreak (ts ++ rest)) :
    Interrupts (t :: (us ++ ts)) (fs ++ [⟨.openBlock "FOR" "NEXT", t.span⟩])
      [.statement ⟨.forNext counter.text start.expr.plain limit.expr.plain none none js none,
        .point 0⟩] := by
  refine .led ht rfl rfl fun he hrest hs hopen => ?_
  rw [List.append_assoc] at hs
  have hheader : us.map Token.laid = counter.word :: .ofSymbol .equals true :: (start.words ++
      .ofKeyword .TO :: (limit.words ++ ((none : Option Phrase).elim [] (fun p =>
        .ofKeyword .STEP :: p.words) ++ (none : Option Guard).elim [] Guard.words))) := by
    simpa using hus
  refine forNext_records hheader hs (hl _ (.keyword he)) fun {v w i g s₁} h₁ hv hw hi hg => ?_
  refine (h.body (by simp) he hrest (hs.after h₁)
    (by rwa [h₁.blocks])).bind_nil fun r s₂ _ hr => ?_
  obtain ⟨items, rfl, hitems⟩ := hr
  refine (Records.report _).map fun _ _ => ?_
  rw [Form.plain_forNext, hv, hw, hi, hg, hitems]
  rfl

theorem beginCase_interrupts {k : Token} (ht : t.laid = (Word.ofKeyword .BEGIN).leading)
    (hc : c.laid = .ofKeyword .CASE) (hk : k.laid = (Word.ofKeyword .CASE).leading)
    (hps : ps.map Token.laid = p.words) (h : Interrupts ts fs js)
    (hl : ∀ rest, LineBreak rest → LineBreak (ts ++ rest)) :
    Interrupts (t :: c :: k :: (ps ++ ts))
      (fs ++ [⟨.openBlock "BEGIN CASE" "END CASE", t.span.merge c.span⟩])
      [.statement ⟨.beginCase [⟨p.expr.plain, js, .point 0⟩], .point 0⟩] := by
  refine .led ht rfl rfl fun he hrest hs hopen => ?_
  simp only [List.cons_append, List.append_assoc] at hs
  refine (Gives.require hs.rest (congrArg Word.kind hc) (congrArg Word.lineStart hc)).bind_records
    fun word s₁ h₁ hword => ?_
  obtain rfl : c = word := hword.symm
  have hs₁ := hs.past h₁
  have harms : Records (caseArms statement ⟨"BEGIN CASE", t.span.merge c.span⟩) s₁
      (k :: (ps ++ ts)) (fs ++ [⟨.openBlock "BEGIN CASE" "END CASE", t.span.merge c.span⟩])
      (·.map CaseArm.plain = [⟨p.expr.plain, js, .point 0⟩]) := by
    refine .done (.of_run (caseStep_case hs₁ (congrArg Word.kind hk)) ?_)
    have harm := caseArm_records hs₁ hps (hl _ (.keyword he)) fun s₂ h₂ =>
      h.body (by simp) he hrest (State.Before.after (by simpa using hs₁) h₂)
        (by rwa [h₂.blocks, h₁.blocks])
    refine harm.bind_nil fun r s₂ _ hr => ?_
    obtain ⟨arm, rfl, harm⟩ := hr
    exact (Records.report _).map fun _ _ => ⟨[arm], rfl, by simp [harm]⟩
  refine harms.map fun r hr => ?_
  rw [Form.plain_beginCase, hr]

end Interrupts

theorem lineBreak_of_head {ts rest : List Token} {k : Keyword} {ws : List Word}
    (hts : ts.map Token.laid = (Word.ofKeyword k).leading :: ws) : LineBreak (ts ++ rest) := by
  obtain ⟨t, us, rfl, ht, -⟩ := List.map_eq_cons_iff.mp hts
  exact .keyword ht

theorem lineBreak_flatMap {us : List Unclosed} {ts rest : List Token}
    (hts : ts.map Token.laid = us.flatMap Unclosed.words) (hrest : LineBreak rest) :
    LineBreak (ts ++ rest) := by
  cases us with
  | nil =>
    obtain rfl := List.map_eq_nil_iff.mp hts
    exact hrest
  | cons u us =>
    obtain ⟨k, ws, hw⟩ := u.opener.head
    rw [List.flatMap_cons, Unclosed.words, hw] at hts
    exact lineBreak_of_head hts

/-- An opener before a body that is cut off. -/
theorem Opener.interrupts (o : Opener) {start : Nat} {ts us : List Token} {fs : List Fault}
    {js : List Item} (hts : ts.map Token.laid = o.words) (hstanding : Standing start (ts ++ us))
    (h : Interrupts us fs js) (hl : ∀ rest, LineBreak rest → LineBreak (us ++ rest)) :
    Interrupts (ts ++ us) (fs ++ [o.fault (start + 1)]) [.statement ⟨o.form js, .point 0⟩] := by
  cases o with
  | loop =>
    obtain ⟨t, rfl, ht⟩ := List.map_eq_singleton_iff.mp hts
    have hspan : t.span = ⟨start + 1, start + 1 + 4⟩ := hstanding.span ht
    have := loop_interrupts ht h
    rwa [hspan] at this
  | forNext counter =>
    obtain ⟨t, ts, rfl, ht, hts⟩ := List.map_eq_cons_iff.mp hts
    have hspan : t.span = ⟨start + 1, start + 1 + 3⟩ := hstanding.span ht
    have := forNext_interrupts ht hts h hl
    rwa [hspan] at this
  | beginCase =>
    obtain ⟨t, ts, rfl, ht, hts⟩ := List.map_eq_cons_iff.mp hts
    obtain ⟨c, ts, rfl, hc, hts⟩ := List.map_eq_cons_iff.mp hts
    obtain ⟨k, ps, rfl, hk, hps⟩ := List.map_eq_cons_iff.mp hts
    have hspan : t.span = ⟨start + 1, start + 1 + 5⟩ := hstanding.span ht
    have hword : c.span = ⟨start + 1 + 5 + 1, start + 1 + 5 + 1 + 4⟩ := by
      have := Standing.span hstanding.2 hc
      rwa [hspan] at this
    have hmerge : t.span.merge c.span = ⟨start + 1, start + 1 + 10⟩ := by
      simp [hspan, hword, Span.merge]
    have := beginCase_interrupts ht hc hk hps h hl
    rwa [hmerge] at this

theorem itemsOf_nulls (n : Nat) :
    itemsOf (List.replicate n .null) = List.replicate n (.statement ⟨.bare .null, .point 0⟩) := by
  induction n with
  | zero => rfl
  | succ n ih => rw [List.replicate_succ, itemsOf, ih, List.replicate_succ, Plan.form]

namespace Unclosed

/-- The blocks are cut off one inside the other, and the faults are found from the inside out. -/
theorem interrupts (us : List Unclosed) : ∀ {start : Nat} {ts : List Token},
    ts.map Token.laid = us.flatMap words → Standing start ts →
      Interrupts ts (faults (start + 1) us).reverse (items us) := by
  induction us with
  | nil =>
    intro start ts hts _
    obtain rfl := List.map_eq_nil_iff.mp hts
    exact .nil
  | cons u us ih =>
    intro start ts hts hstanding
    obtain ⟨ts, vs, rfl, hts, hvs⟩ := List.map_eq_append_iff.mp hts
    obtain ⟨hs, bs, rfl, hhs, hbs⟩ := List.map_eq_append_iff.mp hts
    -- The next block begins where the text of this one ends.
    have hnext : start + byteSize (ink u.words) + 1 = start + 1 + byteSize u.text.toList := by
      rw [u.lines_words.byteSize_eq]
      omega
    have hinner := ih hvs (hstanding.behind hts)
    rw [hnext] at hinner
    have hbody := ItemsRead.interrupts (allRead u.lines bs hbs) hinner fun _ => lineBreak_flatMap hvs
    rw [lines, itemsOf_nulls] at hbody
    rw [List.append_assoc] at hstanding ⊢
    rw [faults, List.reverse_cons]
    refine u.opener.interrupts hhs hstanding hbody fun rest hrest => ?_
    rw [List.append_assoc]
    exact lineBreak_wordsOf hbs (lineBreak_flatMap hvs hrest)

theorem length_faults (us : List Unclosed) (start : Nat) :
    (faults start us).length = us.length := by
  induction us generalizing start with
  | nil => rfl
  | cons u us ih => rw [faults, List.length_cons, List.length_cons, ih]

theorem start_fault (o : Opener) (start : Nat) : (o.fault start).span.start = start := by
  cases o <;> rfl

theorem byteSize_text_pos (u : Unclosed) : 0 < byteSize u.text.toList := by
  apply byteSize_pos
  rw [text, String.toList_append]
  cases u.opener <;> simp [Opener.text]

theorem start_le_faults (us : List Unclosed) (start : Nat) :
    ∀ f ∈ faults start us, start ≤ f.span.start := by
  induction us generalizing start with
  | nil => simp [faults]
  | cons u us ih =>
    refine List.forall_mem_cons.mpr ⟨(start_fault u.opener start).ge, fun f hf => ?_⟩
    exact le_trans (Nat.le_add_right ..) (ih _ f hf)

/-- No two blocks begin at the same byte. -/
theorem faults_pairwise (us : List Unclosed) (start : Nat) :
    (faults start us).Pairwise fun f g => f.span.start < g.span.start := by
  induction us generalizing start with
  | nil => exact .nil
  | cons u us ih =>
    refine .cons (fun g hg => ?_) (ih _)
    have hle := start_le_faults us _ g hg
    have hpos := u.byteSize_text_pos
    rw [start_fault]
    omega

end Unclosed

namespace Diagnostic

/-- Faults of the grammar that start at different bytes are reported from the first to the last,
whatever the order in which they were found. -/
theorem order_of_perm {fs gs : List Fault} (h : fs.Perm gs)
    (hgs : gs.Pairwise fun f g => f.span.start < g.span.start) : order [] fs = gs := by
  have hsorted := @List.pairwise_mergeSort _ (fun a b : Fault => a.span.start ≤ b.span.start)
    (fun a b c => by simpa using le_trans) (fun a b => by simpa using le_total ..) fs
  have hinj := List.inj_on_of_nodup_map (f := fun f : Fault => f.span.start)
    (List.pairwise_map.mpr (hgs.imp fun hlt => hlt.ne))
  have hperm := (List.mergeSort_perm fs fun a b => a.span.start ≤ b.span.start).trans h
  refine List.Perm.eq_of_pairwise (fun a b ha hb hab hba => ?_) hsorted
    (hgs.imp fun hlt => by simpa using hlt.le) hperm
  simp only [decide_eq_true_eq] at hab hba
  exact hinj (hperm.mem_iff.mp ha) hb (le_antisymm hab hba)

theorem report_of_le {source : List Char} {limit : Nat} {fs : List Fault}
    (h : fs.length ≤ limit) : report source limit fs = fs.map (locate source .error) := by
  rw [report_eq, List.take_of_length_le h, List.drop_of_length_le h, cut_nil, List.append_nil]

end Diagnostic

namespace Unclosed

/-- The `IF` with all that its block holds, up to its `END`. -/
theorem ifThen_listRecords {us : List Unclosed} {s : State} {t x u e : Token}
    {bs rest : List Token} {start : Nat} (ht : t.laid = (Word.ofKeyword .IF).leading)
    (hx : x.laid = conditionName.word) (hu : u.laid = .ofKeyword .THEN)
    (hbs : bs.map Token.laid = us.flatMap words) (hstanding : Standing start bs)
    (he : e.laid = (Word.ofKeyword .END).leading) (hrest : LineBreak rest)
    (hs : s.Before (t :: x :: u :: (bs ++ [e] ++ rest))) :
    ListRecords (programStep statement) s (t :: x :: u :: (bs ++ [e]))
      (faults (start + 1) us).reverse
      [.statement ⟨.ifThen (.name "X" (.point 0)) ⟨some (items us), none, .block⟩, .point 0⟩] := by
  have hhead : LineBreak (bs ++ [e] ++ rest) := by
    rw [List.append_assoc]
    exact lineBreak_flatMap hbs (.keyword he)
  refine (programStep_takes _).led ht rfl rfl hs hrest fun s₁ h₁ => ?_
  have hs₁ : s₁.Before ([x] ++ u :: (bs ++ [e] ++ rest)) :=
    ⟨h₁.rest_one hs.rest, h₁.comments.trans hs.comments⟩
  have hcondition : [x].map Token.laid = conditionName.phrase.words := by
    rw [List.map_singleton, hx]
    rfl
  refine ifThen_records hs₁ hcondition hu hhead fun {s₂} h₂ hs₂ => ?_
  rw [List.append_assoc, List.singleton_append] at hs₂
  have hlist := (interrupts us hbs hstanding).records (bodyStep_takes .thenBody _) he hrest
    (s := { s₂ with blocks := .thenBody :: s₂.blocks }) ⟨hs₂.rest, hs₂.comments⟩ (by simp)
  have hclosing := Closing.lone_end he hrest.lone (.inl rfl)
  exact thenBlock_records (body_records_closed hlist hs₂ hclosing) hs₂ (congrArg Word.kind he) hrest

theorem lineStart_sourceWords (us : List Unclosed) :
    ∀ w ∈ (sourceWords us).head?, w.lineStart = true := by
  simp [sourceWords]

theorem listRecords (us : List Unclosed) {ts : List Token}
    (hts : ts.map Token.word = atStart (sourceWords us)) (hstart : FromStart ts) :
    ListRecords (programStep statement) (.start ts []) ts (faults 10 us).reverse
      [.statement ⟨.ifThen (.name "X" (.point 0)) ⟨some (items us), none, .block⟩, .point 0⟩,
        .statement ⟨.assignment (.name "Y" (.point 0)) (.number "1" (.point 0)), .point 0⟩] := by
  have hlaid := map_laid_atStart (portable_sourceWords us) (lineStart_sourceWords us) hts
  simp only [sourceWords, line_cons, List.cons_append, List.nil_append] at hlaid
  obtain ⟨t, ts, rfl, ht, hlaid⟩ := List.map_eq_cons_iff.mp hlaid
  obtain ⟨x, ts, rfl, hx, hlaid⟩ := List.map_eq_cons_iff.mp hlaid
  obtain ⟨u, ts, rfl, hu, hlaid⟩ := List.map_eq_cons_iff.mp hlaid
  obtain ⟨bs, ts, rfl, hbs, hlaid⟩ := List.map_eq_append_iff.mp hlaid
  obtain ⟨e, ts, rfl, he, has⟩ := List.map_eq_cons_iff.mp hlaid
  have htext : t.text = "IF" := congrArg Word.text ht
  have hspan : t.span = ⟨0, 2⟩ := by rw [hstart.1, htext]; rfl
  have hstanding : Standing 9 bs := by
    have hafter : Standing 2 ([x, u] ++ (bs ++ e :: ts)) := by
      have := hstart.2
      rwa [hspan] at this
    have hwords : [x, u].map Token.laid = [conditionName.word, .ofKeyword .THEN] := by simp [hx, hu]
    exact (standing_append.mp (hafter.behind hwords)).1
  have hs : (State.start (t :: x :: u :: (bs ++ e :: ts)) []).Before
      (t :: x :: u :: (bs ++ [e] ++ ts)) := ⟨by simp [State.start], rfl⟩
  have hrest : LineBreak ts := by
    obtain ⟨y, ys, rfl, hy, -⟩ := List.map_eq_cons_iff.mp has
    refine .cons (congrArg Word.lineStart hy) fun z => ?_
    rw [show y.kind = .identifier from congrArg Word.kind hy]
    simp
  have hif := ifThen_listRecords ht hx hu hbs hstanding he hrest hs
  have hassign : ItemsRead ts [.statement
      ⟨.assignment (.name "Y" (.point 0)) (.number "1" (.point 0)), .point 0⟩] :=
    assign_isRead targetName one ts has
  have hall := hif.append fun s' h' =>
    hassign.gives (programStep_takes _) (s := s') (by simpa using hs.after h') .nil
  simpa using hall

end Unclosed

/-- An `END` ends every block inside its own. Each block without a terminator is reported once, in
the order of the source and with the words that open it, and keeps what was read of it; the line
after the `END` is no part of them. -/
theorem interrupted_blocks (o : Options) (us : List Unclosed) (h : us.length ≤ o.reportLimit) :
    (parseWith o (Unclosed.source us)).diagnostics.length = us.length ∧
      (parseWith o (Unclosed.source us)).diagnostics =
        (Unclosed.faults 10 us).map (Diagnostic.locate (Unclosed.source us).toList .error) ∧
      (parseWith o (Unclosed.source us)).program.items.map Item.plain =
        [.statement ⟨.ifThen (.name "X" (.point 0)) ⟨some (Unclosed.items us), none, .block⟩,
            .point 0⟩,
          .statement ⟨.assignment (.name "Y" (.point 0)) (.number "1" (.point 0)), .point 0⟩] := by
  have hfluent := (Unclosed.portable_sourceWords us).fluent (Unclosed.lineStart_sourceWords us)
  have hread := parseWith_write o hfluent fun ts => Unclosed.listRecords us
  rw [write_atStart, Unclosed.write_sourceWords, String.ofList_toList,
    Diagnostic.order_of_perm (List.reverse_perm _) (Unclosed.faults_pairwise us 10),
    Diagnostic.report_of_le (by rwa [Unclosed.length_faults])] at hread
  refine ⟨?_, hread⟩
  rw [hread.1, List.length_map, Unclosed.length_faults]

/-- A `LOOP` in a `CASE` in a `FOR`, and one `END` for all of them. -/
theorem interrupted_blocks_three :
    (parse ("IF X THEN\nFOR I = 1 TO 2\nNULL\nBEGIN CASE\nCASE 1\n" ++
      "LOOP\nNULL\nEND\nY = 1")).diagnostics =
        [⟨.error, ⟨.openBlock "FOR" "NEXT", ⟨10, 13⟩⟩, ⟨2, 1⟩⟩,
          ⟨.error, ⟨.openBlock "BEGIN CASE" "END CASE", ⟨30, 40⟩⟩, ⟨4, 1⟩⟩,
          ⟨.error, ⟨.openBlock "LOOP" "REPEAT", ⟨48, 52⟩⟩, ⟨6, 1⟩⟩] ∧
      (parse ("IF X THEN\nFOR I = 1 TO 2\nNULL\nBEGIN CASE\nCASE 1\n" ++
        "LOOP\nNULL\nEND\nY = 1")).program.items.map Item.plain =
          [.statement ⟨.ifThen (.name "X" (.point 0)) ⟨some [.statement ⟨.forNext "I"
              (.number "1" (.point 0)) (.number "2" (.point 0)) none none
              [.statement ⟨.bare .null, .point 0⟩, .statement ⟨.beginCase
                [⟨.number "1" (.point 0), [.statement ⟨.loop [.statement ⟨.bare .null, .point 0⟩]
                  none [], .point 0⟩], .point 0⟩], .point 0⟩] none, .point 0⟩], none, .block⟩,
              .point 0⟩,
            .statement ⟨.assignment (.name "Y" (.point 0)) (.number "1" (.point 0)), .point 0⟩] :=
  (interrupted_blocks {} [⟨.forNext counterName, 1⟩, ⟨.beginCase, 0⟩, ⟨.loop, 1⟩]
    (by decide)).2

end PickSyntax
