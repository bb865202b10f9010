import PickSyntax.Proofs.Rendering.Structured

/-!
# Conditionals on one line

Conditionals that nest on one line, around a statement that does nothing. A statement in a
branch reads on as long as it can, so an `ELSE` goes to the last `IF` that still lacks one. That
decides what may be written before an `ELSE`: a branch whose right edge is an `IF` with a `THEN`
alone would take the `ELSE` for itself.

The induction is on the statement, with the rest of the line left open. What follows a statement
on its line is nothing or an `ELSE`, and the latter only where the statement does not want it.
-/
namespace PickSyntax

open PickSyntax.Parser PickSyntax.Grammar

/-- A statement on one line. -/
inductive Inline where
  | null
  | ifThen (condition : Name) (branch : Inline)
  | ifThenElse (condition : Name) (branch other : Inline)
  | ifElse (condition : Name) (other : Inline)

namespace Inline

def text : Inline → String
  | .null => "NULL"
  | .ifThen c t => "IF " ++ c.text ++ " THEN " ++ t.text
  | .ifThenElse c t u => "IF " ++ c.text ++ " THEN " ++ t.text ++ " ELSE " ++ u.text
  | .ifElse c u => "IF " ++ c.text ++ " ELSE " ++ u.text

/-- What the text says, up to byte ranges. -/
def form : Inline → Form
  | .null => .bare .null
  | .ifThen c t =>
    .ifThen (.name c.text (.point 0)) ⟨some [.statement ⟨t.form, .point 0⟩], none, .inline⟩
  | .ifThenElse c t u =>
    .ifThen (.name c.text (.point 0)) ⟨some [.statement ⟨t.form, .point 0⟩],
      some [.statement ⟨u.form, .point 0⟩], .inline⟩
  | .ifElse c u =>
    .ifThen (.name c.text (.point 0)) ⟨none, some [.statement ⟨u.form, .point 0⟩], .inline⟩

/-- At the right edge stands an `IF` that has a `THEN` and no `ELSE`. -/
def dangles : Inline → Bool
  | .null => false
  | .ifThen _ _ => true
  | .ifThenElse _ _ u | .ifElse _ u => u.dangles

/-- No branch before an `ELSE` wants that `ELSE`. -/
def attached : Inline → Bool
  | .null => true
  | .ifThen _ t => t.attached
  | .ifThenElse _ t u => !t.dangles && t.attached && u.attached
  | .ifElse _ u => u.attached

/-- The number of `IF`s. -/
def conditionals : Inline → Nat
  | .null => 0
  | .ifThen _ t => t.conditionals + 1
  | .ifThenElse _ t u => t.conditionals + u.conditionals + 1
  | .ifElse _ u => u.conditionals + 1

/-- The `IF` of each `ELSE`, where the first `IF` of the statement has the number `n`. -/
def owners (n : Nat) : Inline → List Nat
  | .null => []
  | .ifThen _ t => t.owners (n + 1)
  | .ifThenElse _ t u => t.owners (n + 1) ++ n :: u.owners (n + 1 + t.conditionals)
  | .ifElse _ u => n :: u.owners (n + 1)

end Inline

/-- The nearest `IF` for each `ELSE` of a line, where those in `pending` stand before it and lack
one, the nearest first, and the next `IF` has the number `n`. -/
def nearestIfs (pending : List Nat) (n : Nat) : List TokenKind → List (Option Nat)
  | [] => []
  | .keyword .IF :: ks => nearestIfs (n :: pending) (n + 1) ks
  | .keyword .ELSE :: ks => pending.head? :: nearestIfs pending.tail n ks
  | _ :: ks => nearestIfs pending n ks

namespace Inline

open Word in
def words : Inline → List Word
  | .null => [ofKeyword .NULL]
  | .ifThen c t => ofKeyword .IF :: c.word :: ofKeyword .THEN :: t.words
  | .ifThenElse c t u =>
    ofKeyword .IF :: c.word :: ofKeyword .THEN :: (t.words ++ ofKeyword .ELSE :: u.words)
  | .ifElse c u => ofKeyword .IF :: c.word :: ofKeyword .ELSE :: u.words

/-- The words stand on one line, the first of them being `NULL` or `IF`. -/
theorem head (t : Inline) : ∃ w ws, t.words = w :: ws ∧ w.spaced = true ∧ w.lineStart = false ∧
    opensItem w.kind = true := by
  cases t <;> exact ⟨_, _, rfl, rfl, rfl, rfl⟩

theorem portable : ∀ t : Inline, Portable t.words
  | .null => .keyword (by simp) .nil
  | .ifThen c t => .keyword (by simp) (c.portable.append (t.portable.keyword (by simp)))
  | .ifThenElse c t u => .keyword (by simp)
    (c.portable.append ((t.portable.append (u.portable.keyword (by simp))).keyword (by simp)))
  | .ifElse c u => .keyword (by simp) (c.portable.append (u.portable.keyword (by simp)))

theorem ink_words (t : Inline) : ink t.words = ' ' :: t.text.toList := by
  induction t with
  | null => rfl
  | ifThen c t ih =>
    simp [words, text, ih, Word.gap, Word.ofKeyword, Name.word, Keyword.spelling]
  | ifThenElse c t u iht ihu =>
    simp [words, text, iht, ihu, Word.gap, Word.ofKeyword, Name.word, Keyword.spelling]
  | ifElse c u ih =>
    simp [words, text, ih, Word.gap, Word.ofKeyword, Name.word, Keyword.spelling]

theorem write_words (t : Inline) : String.ofList (write (line t.words)) = t.text := by
  obtain ⟨w, ws, hw, hs, hl, -⟩ := t.head
  have hink : w.text.toList ++ ink ws = t.text.toList := by
    simpa [hw, Word.gap, hl, hs] using t.ink_words
  rw [hw, line_cons, write, Word.leading_text, hink, String.ofList_toList]

/-- What may follow on the line: nothing, or an `ELSE` that the statement does not want. -/
def Stops (t : Inline) (rest : List Token) : Prop :=
  rest = [] ∨ t.dangles = false ∧ ∃ e us, rest = e :: us ∧ e.laid = .ofKeyword .ELSE

/-- The words read as the tree, on whatever line the first of them stands. -/
def IsRead (t : Inline) : Prop :=
  ∀ {s ts rest}, line (ts.map Token.laid) = line t.words → s.Before (ts ++ rest) → t.Stops rest →
    Gives statement s ts (·.plain = ⟨t.form, .point 0⟩)

end Inline

theorem Clause.plain_mk (is js : Option (List Item)) (layout : ClauseLayout) :
    (Clause.mk is js layout).plain =
      ⟨is.map (List.map Item.plain), js.map (List.map Item.plain), layout⟩ := by
  rw [Clause.plain, Clause.relocate, Item.relocateAll?_eq_map, Item.relocateAll?_eq_map]
  rfl

/-- A name is an expression. -/
def Name.phrase (n : Name) : Phrase where
  expr := .name n.text (.point 0)
  words := [n.word]
  inWords := Expr.inWords_single n.text n.admits (.name n.isName)
  ranked := by simp [Expr.Ranked, Expr.nodes, Expr.Fits]

namespace Grammar
variable {s : State} {t u n e : Token} {ts us rest : List Token} {c : Name} {clause : Clause}

/-- An `IF` with a name for its condition. -/
theorem ifName_gives {k : Keyword} (ht : t.kind = .keyword .IF) (hn : n.laid = c.word)
    (hu : u.kind = .keyword k) (hk : binaryOfKeyword? k = none)
    (hs : s.Before (t :: n :: u :: (us ++ rest)))
    (h : ∀ {owner s}, s.Before (u :: (us ++ rest)) → Gives (clause? statement owner) s (u :: us)
      fun o => ∃ v, o = some v ∧ v.plain = clause) :
    Gives statement s (t :: n :: u :: us)
      (·.plain = ⟨.ifThen (.name c.text (.point 0)) clause, .point 0⟩) := by
  refine statement_gives hs.rest ?_
  rw [form_of_keyword ht]
  refine (Gives.next hs.rest).bind fun v s₁ h₁ hv => ?_
  rw [hv]
  have hs₁ := hs.past h₁
  have hcondition : Gives expression s₁ [n] (·.plain = c.phrase.expr.plain) :=
    Phrase.gives (by rw [List.map_singleton, hn]; rfl) hs₁ (ends_keyword hu hk)
  refine hcondition.bind fun v s₂ h₂ hv => ?_
  have hrequired : Gives (requiredClause statement ⟨"IF", t.span⟩) s₂ (u :: us) (·.plain = clause) := by
    refine (h (hs₁.past h₂)).bind_nil fun o s₃ _ ho => ?_
    obtain ⟨v, rfl, hv⟩ := ho
    exact .pure hv
  refine hrequired.map fun v' hv' => ?_
  rw [Form.plain_ifThen, hv, hv']
  rfl

/-- One statement in a branch. -/
theorem clauseStatement_gives {v : Statement} (hline : s.onLine = true) (hne : ts ≠ [])
    (h : Gives statement { s with begun := false } ts (·.plain = v)) :
    Gives (clauseStatement statement) s ts (·.plain = v) := by
  obtain ⟨w, s₁, hrun, ht, hf, hw⟩ := h
  refine .look ?_
  rw [if_pos hline]
  refine ⟨w, s₁, hrun, ⟨ht.rest, ht.previous, ?_, ht.comments, ht.blocks, ht.angled⟩, hf, hw⟩
  rw [ht.begun]
  simp [hne]

/-- A clause on one line stays so where no lone `END` follows it. -/
theorem closeInline_gives (h : s.atLoneEnd = false) :
    Gives (closeInline clause) s [] (· = clause) := by
  refine .look ?_
  simp only [h, Bool.and_false, Bool.false_and, Bool.false_eq_true, if_false]
  exact .pure rfl

end Grammar

namespace Inline
variable {s : State} {t u : Inline} {ts us rest : List Token} {e n : Token} {owner : Owner}

theorem onLine (hts : ts.map Token.laid = t.words) (hs : s.Before (ts ++ rest)) :
    s.onLine = true ∧ ts ≠ [] := by
  obtain ⟨w, ws, hw, -, hl, -⟩ := t.head
  rw [hw] at hts
  obtain ⟨v, vs, rfl, rfl, -⟩ := List.map_eq_cons_iff.mp hts
  have hline : v.lineStart = false := hl
  simp [State.onLine, hs.rest, hline]

theorem Stops.not_lone_end (h : t.Stops rest) (hs : s.Before rest) : s.atLoneEnd = false := by
  obtain rfl | ⟨-, e, us, rfl, he⟩ := h
  · simp [State.atLoneEnd, State.isAt, State.kind?, hs.rest]
  · have hk : e.kind = .keyword .ELSE := congrArg Word.kind he
    simp [State.atLoneEnd, State.isAt, State.kind?, hs.rest, hk]

theorem IsRead.gives_branch (h : t.IsRead) (hts : ts.map Token.laid = t.words)
    (hs : s.Before (ts ++ rest)) (hstop : t.Stops rest) :
    Gives (clauseStatement statement) s ts (·.plain = ⟨t.form, .point 0⟩) := by
  obtain ⟨hline, hne⟩ := onLine hts hs
  exact clauseStatement_gives hline hne (h (by rw [hts]) ⟨hs.rest, hs.comments⟩ hstop)

theorem IsRead.gives_else (h : t.IsRead) (hts : ts.map Token.laid = t.words)
    (hs : s.Before (ts ++ rest)) (hstop : t.Stops rest) :
    Gives (elseBranch statement owner) s ts fun r =>
      r.1.map Item.plain = [.statement ⟨t.form, .point 0⟩] ∧ r.2 = .inline := by
  refine .look ?_
  rw [if_pos (onLine hts hs).1]
  refine (h.gives_branch hts hs hstop).map fun v hv => ⟨?_, rfl⟩
  rw [List.map_singleton, ← hv]
  rfl

/-- A statement after `THEN`, up to the end of the line. -/
theorem IsRead.gives_then (h : t.IsRead) (hts : ts.map Token.laid = t.words) (hs : s.Before ts) :
    Gives (thenInline statement owner) s ts
      (·.plain = ⟨some [.statement ⟨t.form, .point 0⟩], none, .inline⟩) := by
  have hs : s.Before (ts ++ []) := by rwa [List.append_nil]
  refine (h.gives_branch hts hs (.inl rfl)).bind_nil fun v s₁ h₁ hv => ?_
  have hs₁ := hs.after h₁
  refine (Gives.reject (LineBreak.nil.isAtOnLine hs₁ _)).bind_nil fun b s₂ h₂ hb => ?_
  subst hb
  have hend : s₂.atLoneEnd = false := Stops.not_lone_end (t := t) (.inl rfl) (hs₁.still h₂)
  refine (closeInline_gives hend).mono fun c hc => ?_
  rw [hc, Clause.plain_mk, Option.map_some, List.map_singleton, ← hv]
  rfl

/-- A statement after `THEN` and another one after `ELSE`. -/
theorem IsRead.gives_then_else (h : t.IsRead) (k : u.IsRead) (hd : t.dangles = false)
    (hts : ts.map Token.laid = t.words) (he : e.laid = .ofKeyword .ELSE)
    (hus : us.map Token.laid = u.words) (hs : s.Before (ts ++ e :: (us ++ rest)))
    (hstop : u.Stops rest) : Gives (thenInline statement owner) s (ts ++ e :: us)
      (·.plain = ⟨some [.statement ⟨t.form, .point 0⟩], some [.statement ⟨u.form, .point 0⟩],
        .inline⟩) := by
  refine (h.gives_branch hts hs (.inr ⟨hd, e, us ++ rest, rfl, he⟩)).bind fun v s₁ h₁ hv => ?_
  have hs₁ := hs.after h₁
  refine (Gives.accept hs₁.rest (congrArg Word.kind he) (congrArg Word.lineStart he)).bind
    fun b s₂ h₂ hb => ?_
  subst hb
  have hs₂ := hs₁.past h₂
  refine (k.gives_else hus hs₂ hstop).bind_nil fun r s₃ h₃ hr => ?_
  obtain ⟨other, layout⟩ := r
  obtain ⟨hother, rfl⟩ := hr
  refine (closeInline_gives (hstop.not_lone_end (hs₂.after h₃))).mono fun c hc => ?_
  rw [hc, Clause.plain_mk, Option.map_some, Option.map_some, List.map_singleton, hother, ← hv]
  rfl

theorem null_isRead : null.IsRead := by
  intro s ts rest hts hs _
  obtain ⟨t, us, rfl⟩ : ∃ t us, ts = t :: us := by
    cases ts with
    | nil => cases hts
    | cons t us => exact ⟨t, us, rfl⟩
  simp only [words, List.map_cons, line_cons, List.cons.injEq, List.map_eq_nil_iff] at hts
  obtain ⟨ht, rfl⟩ := hts
  have hk : t.kind = .keyword .NULL := congrArg Word.kind ht
  refine statement_gives hs.rest ?_
  rw [form_of_keyword hk]
  exact (Gives.next hs.rest).map fun _ _ => rfl

/-- The word `IF`, on whatever line it stands, with a name and the word behind it. -/
theorem uncons_header {c : Name} {k : Keyword} {ws : List Word}
    (hts : line (ts.map Token.laid) = line (.ofKeyword .IF :: c.word :: .ofKeyword k :: ws)) :
    ∃ t n u us, ts = t :: n :: u :: us ∧ t.kind = .keyword .IF ∧ n.laid = c.word ∧
      u.laid = .ofKeyword k ∧ us.map Token.laid = ws := by
  cases ts with
  | nil => cases hts
  | cons t ts =>
    simp only [List.map_cons, line_cons, List.cons.injEq] at hts
    obtain ⟨ht, hts⟩ := hts
    obtain ⟨n, ts, rfl, hn, hts⟩ := List.map_eq_cons_iff.mp hts
    obtain ⟨u, us, rfl, hu, hus⟩ := List.map_eq_cons_iff.mp hts
    exact ⟨t, n, u, us, rfl, congrArg Word.kind ht, hn, hu, hus⟩

/-- The clause behind a `THEN` on its line. -/
theorem clause?_gives_then {v : Token} {clause : Clause} (hv : v.laid = .ofKeyword .THEN)
    (hts : ∀ {s : State}, s.Before (ts ++ rest) → s.onLine = true)
    (h : ∀ {s}, s.Before (ts ++ rest) → Gives (thenInline statement owner) s ts (·.plain = clause))
    (hs : s.Before (v :: (ts ++ rest))) : Gives (clause? statement owner) s (v :: ts)
      fun o => ∃ c, o = some c ∧ c.plain = clause := by
  refine (Gives.accept hs.rest (congrArg Word.kind hv) (congrArg Word.lineStart hv)).bind
    fun b s₁ h₁ hb => ?_
  subst hb
  have hs₁ := hs.past h₁
  refine .look ?_
  simp only [if_true, hts hs₁]
  exact (h hs₁).map fun c hc => ⟨c, rfl, hc⟩

theorem ifThen_isRead (c : Name) (h : t.IsRead) : (ifThen c t).IsRead := by
  intro s ts rest hts hs hstop
  obtain ⟨i, n, v, us, rfl, hi, hn, hv, hus⟩ := uncons_header hts
  -- Another branch would belong to this statement, so the line ends here.
  obtain rfl : rest = [] := by
    obtain hrest | ⟨hd, -⟩ := hstop
    · exact hrest
    · cases hd
  refine ifName_gives hi hn (congrArg Word.kind hv) rfl hs fun hs' => ?_
  refine clause?_gives_then hv (fun hs => (onLine hus hs).1) (fun hs => ?_) hs'
  exact h.gives_then hus (by rwa [List.append_nil] at hs)

theorem ifThenElse_isRead (c : Name) (hd : t.dangles = false) (h : t.IsRead) (k : u.IsRead) :
    (ifThenElse c t u).IsRead := by
  intro s ws rest hws hs hstop
  obtain ⟨i, n, v, vs, rfl, hi, hn, hv, hvs⟩ := uncons_header hws
  obtain ⟨ts, us, rfl, hts, hus⟩ := List.map_eq_append_iff.mp hvs
  obtain ⟨e, us, rfl, he, hus⟩ := List.map_eq_cons_iff.mp hus
  refine ifName_gives hi hn (congrArg Word.kind hv) rfl hs fun hs' => ?_
  refine clause?_gives_then hv (fun hs => ?_) (fun hs => ?_) hs'
  · rw [List.append_assoc] at hs
    exact (onLine hts hs).1
  · rw [List.append_assoc, List.cons_append] at hs
    exact h.gives_then_else k hd hts he hus hs hstop

theorem ifElse_isRead (c : Name) (h : t.IsRead) : (ifElse c t).IsRead := by
  intro s ts rest hts hs hstop
  obtain ⟨i, n, e, us, rfl, hi, hn, he, hus⟩ := uncons_header hts
  have hk : e.kind = .keyword .ELSE := congrArg Word.kind he
  refine ifName_gives hi hn hk rfl hs fun {owner s'} hs' => ?_
  have hthen : s'.isAtOnLine (.keyword .THEN) = false := by
    simp [State.isAtOnLine, State.isAt, State.kind?, hs'.rest, hk]
  refine (Gives.reject hthen).bind fun b s₁ h₁ hb => ?_
  subst hb
  have hs₁ := hs'.still h₁
  refine (Gives.accept hs₁.rest hk (congrArg Word.lineStart he)).bind fun b s₂ h₂ hb => ?_
  subst hb
  have hs₂ := hs₁.past h₂
  refine (h.gives_else hus hs₂ hstop).bind_nil fun r s₃ h₃ hr => ?_
  obtain ⟨other, layout⟩ := r
  obtain ⟨hother, rfl⟩ := hr
  have hend := hstop.not_lone_end (hs₂.after h₃)
  refine (closeInline_gives hend).map fun c hc => ⟨c, rfl, ?_⟩
  rw [hc, Clause.plain_mk, Option.map_none, Option.map_some, hother]

theorem isRead : ∀ t : Inline, t.attached = true → t.IsRead
  | .null, _ => null_isRead
  | .ifThen c t, h => ifThen_isRead c (isRead t h)
  | .ifThenElse c t u, h => by
    simp only [attached, Bool.and_eq_true, Bool.not_eq_true'] at h
    exact ifThenElse_isRead c h.1.1 (isRead t h.1.2) (isRead u h.2)
  | .ifElse c u, h => ifElse_isRead c (isRead u h)

/-- The `IF`s that lack an `ELSE`, the nearest to the end of the line first. -/
def pending (n : Nat) : Inline → List Nat
  | .null => []
  | .ifThen _ t => t.pending (n + 1) ++ [n]
  | .ifThenElse _ t u => u.pending (n + 1 + t.conditionals)
  | .ifElse _ u => u.pending (n + 1)

theorem pending_of_not_dangles (h : t.dangles = false) (n : Nat) : t.pending n = [] := by
  induction t generalizing n with
  | null => rfl
  | ifThen => cases h
  | ifThenElse c t u _ ih => exact ih h _
  | ifElse c u ih => exact ih h _

end Inline

theorem nearestIfs_name {k : TokenKind} (h : k.isName = true) (pending : List Nat) (n : Nat)
    (ks : List TokenKind) : nearestIfs pending n (k :: ks) = nearestIfs pending n ks := by
  cases k with
  | keyword k => cases k <;> first | rfl | cases h
  | _ => rfl

namespace Inline

/-- One more `IF` lacks an `ELSE`. -/
theorem nearestIfs_header (c : Name) (ws : List Word) (before : List Nat) (n : Nat)
    (ks : List TokenKind) :
    nearestIfs before n ((.ofKeyword .IF :: c.word :: ws).map Word.kind ++ ks) =
      nearestIfs (n :: before) (n + 1) (ws.map Word.kind ++ ks) :=
  nearestIfs_name c.isName ..

theorem nearestIfs_words (t : Inline) (h : t.attached = true) (before : List Nat) (n : Nat)
    (ks : List TokenKind) : nearestIfs before n (t.words.map Word.kind ++ ks) =
      (t.owners n).map some ++ nearestIfs (t.pending n ++ before) (n + t.conditionals) ks := by
  induction t generalizing before n ks with
  | null => rfl
  | ifThen c t ih =>
    calc nearestIfs before n ((ifThen c t).words.map Word.kind ++ ks)
        = nearestIfs (n :: before) (n + 1) (t.words.map Word.kind ++ ks) :=
          nearestIfs_header c ..
      _ = _ := by
          rw [ih h, owners, pending, conditionals, List.append_assoc, List.singleton_append,
            Nat.add_right_comm, Nat.add_assoc]
  | ifThenElse c t u iht ihu =>
    simp only [attached, Bool.and_eq_true, Bool.not_eq_true'] at h
    have hclosed := pending_of_not_dangles h.1.1 (n + 1)
    calc nearestIfs before n ((ifThenElse c t u).words.map Word.kind ++ ks)
        = nearestIfs (n :: before) (n + 1)
            (t.words.map Word.kind ++ .keyword .ELSE :: (u.words.map Word.kind ++ ks)) := by
          rw [words, nearestIfs_header, List.map_cons, List.map_append, List.cons_append,
            List.append_assoc]
          rfl
      _ = (t.owners (n + 1)).map some ++
            some n :: nearestIfs before (n + 1 + t.conditionals) (u.words.map Word.kind ++ ks) := by
          rw [iht h.1.2, hclosed]
          rfl
      _ = _ := by
          rw [ihu h.2, owners, pending, conditionals, List.map_append, List.map_cons,
            List.append_assoc, List.cons_append,
            show n + (t.conditionals + u.conditionals + 1)
              = n + 1 + t.conditionals + u.conditionals by omega]
  | ifElse c u ih =>
    calc nearestIfs before n ((ifElse c u).words.map Word.kind ++ ks)
        = some n :: nearestIfs before (n + 1) (u.words.map Word.kind ++ ks) :=
          nearestIfs_header c ..
      _ = _ := by
          rw [ih h, owners, pending, conditionals, List.map_cons, List.cons_append,
            show n + (u.conditionals + 1) = n + 1 + u.conditionals by omega]

theorem lineStart_head (t : Inline) : ∀ v ∈ (line t.words).head?, v.lineStart = true := by
  obtain ⟨w, ws, hw, -⟩ := t.head
  simp [hw]

theorem listRecords (t : Inline) (h : t.attached = true)
    (hts : ts.map Token.word = atStart (line t.words)) :
    ListRecords (programStep statement) (.start ts []) ts [] [.statement ⟨t.form, .point 0⟩] := by
  have hlaid := map_laid_atStart t.portable.asLine t.lineStart_head hts
  obtain ⟨w, ws, hw, -, -, hopens⟩ := t.head
  rw [hw, line_cons] at hlaid
  obtain ⟨u, us, rfl, hu, hus⟩ := List.map_eq_cons_iff.mp hlaid
  have hkind : u.kind = w.kind := congrArg Word.kind hu
  have hline : line ((u :: us).map Token.laid) = line t.words := by
    rw [List.map_cons, hu, hus, hw]
    rfl
  have hs : (State.start (u :: us) []).Before (u :: us ++ []) := ⟨(List.append_nil _).symm, rfl⟩
  exact (programStep_takes _).statement rfl hs.rest rfl (by rwa [hkind]) (by simp [LineEnds])
    (by simp) (t.isRead h hline hs (.inl rfl)).records

/-- The tokens of the text, whose kinds do not depend on where the line begins. -/
theorem kinds_lex (t : Inline) : (lex t.text).tokens.map Token.kind = t.words.map Word.kind := by
  have hread := lex_write (t.portable.asLine.fluent t.lineStart_head)
  rw [write_atStart, t.write_words] at hread
  have hkinds := congrArg (List.map Word.kind) hread.words
  obtain ⟨w, ws, hw, -⟩ := t.head
  rw [List.map_map, hw] at hkinds
  rw [show Token.kind = Word.kind ∘ Token.word from rfl, hkinds, hw]
  rfl

end Inline

/-- Conditionals on one line read back, whichever way they nest: without diagnostics, with every
clause on its line, and with each `ELSE` at the nearest `IF` before it that has none yet. -/
theorem inline_round_trip (t : Inline) (h : t.attached = true) :
    (parse t.text).diagnostics = [] ∧
      (parse t.text).program.items.map Item.plain = [.statement ⟨t.form, .point 0⟩] ∧
      nearestIfs [] 0 ((lex t.text).tokens.map Token.kind) = (t.owners 0).map some := by
  have hfluent := t.portable.asLine.fluent t.lineStart_head
  have hread := parse_write hfluent fun ts hts => t.listRecords h hts
  rw [write_atStart, t.write_words] at hread
  refine ⟨hread.1, hread.2, ?_⟩
  have howners := t.nearestIfs_words h [] 0 []
  rwa [List.append_nil, nearestIfs, List.append_nil, ← t.kinds_lex] at howners

/-- The first `ELSE` goes to the inner `IF` and the second one to the outer. -/
theorem inline_round_trip_nested :
    (parse "IF I THEN IF I THEN NULL ELSE NULL ELSE IF I ELSE IF I THEN NULL").diagnostics = [] ∧
      ((parse "IF I THEN IF I THEN NULL ELSE NULL ELSE IF I ELSE IF I THEN NULL").program.items.map
        Item.plain = [.statement ⟨(Inline.ifThenElse counterName
          (.ifThenElse counterName .null .null) (.ifElse counterName (.ifThen counterName .null))).form,
          .point 0⟩]) ∧
      nearestIfs [] 0 ((lex "IF I THEN IF I THEN NULL ELSE NULL ELSE IF I ELSE IF I THEN NULL").tokens.map
        Token.kind) = [some 1, some 0, some 2] :=
  inline_round_trip (.ifThenElse counterName (.ifThenElse counterName .null .null)
    (.ifElse counterName (.ifThen counterName .null))) (by decide)

end PickSyntax
