import PickSyntax.Proofs.Expression.Climbing
import PickSyntax.Proofs.Parser.Seam

/-!
# Decisions that agree

What the parsers ask about the next tokens has the same answer in two states that correspond.
Where the first list has ended, a question that keeps to the line is answered as for a token
that is not there: what stands behind the end begins a line or is a separator. Questions
that look at any line agree only where the first list goes on.
-/
namespace PickSyntax.Parser.Seam

open PickSyntax.Grammar

variable {m : Seam} {known : Bool}

section Lists
variable {t u : Token} {ts us : List Token}

theorem Aligned.length (h : m.Aligned known ts us) : us.length = ts.length + m.tail.length := by
  induction h with
  | nil => simp
  | cons _ _ _ _ ih =>
    rw [List.length_cons, List.length_cons, ih]
    omega

/-- The second list ends with the tail. -/
theorem Aligned.ends (h : m.Aligned known ts us) : ∃ vs, us = vs ++ m.tail := by
  induction h with
  | nil => exact ⟨[], rfl⟩
  | @cons _ t u ts us _ _ _ _ ih =>
    obtain ⟨vs, rfl⟩ := ih
    exact ⟨u :: vs, rfl⟩

/-- Flags that are known need not be used. -/
theorem Aligned.weaken (h : m.Aligned true ts us) : m.Aligned known ts us := by
  cases h with
  | nil => exact .nil
  | cons hl hk hc ht => exact .cons hl (fun _ => hk rfl) hc ht

theorem tail_cases (m : Seam) : m.tail = [] ∨ ∃ t us, m.tail = t :: us ∧ Boundary t := by
  cases h : m.tail with
  | nil => exact .inl rfl
  | cons t us => exact .inr ⟨t, us, rfl, m.boundary t (by rw [h]; rfl)⟩

/-- Either both lists go on with like tokens, or the first one has ended and the other one
has, too, or is at a boundary. -/
theorem Aligned.ahead (h : m.Aligned true ts us) :
    (∃ t u ts' us', ts = t :: ts' ∧ us = u :: us' ∧ t.kind = u.kind ∧ SameLayout t u ∧
      m.Aligned true ts' us') ∨
    ts = [] ∧ (us = [] ∨ ∃ u us', us = u :: us' ∧ Boundary u) := by
  cases h with
  | nil => exact .inr ⟨rfl, m.tail_cases⟩
  | cons hl hk _ ht => exact .inl ⟨_, _, _, _, rfl, rfl, hl.kind, hk rfl, ht⟩

/-- The symbol directly behind a token is the same, but for a separator that the first list
does not have. -/
theorem Aligned.symbolBeside (h : m.Aligned true ts us) : symbolBeside? ts = symbolBeside? us ∨
    symbolBeside? ts = none ∧ symbolBeside? us = some .semicolon := by
  obtain ⟨t, u, _, _, rfl, rfl, hk, hl, -⟩ | ⟨rfl, rfl | ⟨u, _, rfl, hb⟩⟩ := h.ahead
  · simp [symbolBeside?, hk, hl.spaced]
  · exact .inl rfl
  · rcases hb.apart with ⟨-, hs⟩ | hk
    · simp [symbolBeside?, hs]
    · cases hs : u.spaced <;> simp [symbolBeside?, hs, hk]

theorem binaryOfSymbol?_semicolon (angled : Bool) (y : Symbol) :
    binaryOfSymbol? angled y (some .semicolon) = binaryOfSymbol? angled y none := by
  cases y <;> rfl

theorem Aligned.binaryOfSymbol (h : m.Aligned true ts us) (angled : Bool) (y : Symbol) :
    binaryOfSymbol? angled y (symbolBeside? ts) = binaryOfSymbol? angled y (symbolBeside? us) := by
  obtain he | ⟨hn, hs⟩ := h.symbolBeside
  · rw [he]
  · rw [hn, hs, binaryOfSymbol?_semicolon]

theorem Aligned.isBeforeParen (h : m.Aligned true ts us) (t u : Token) :
    isBeforeParen (t :: ts) = isBeforeParen (u :: us) := by
  unfold Grammar.isBeforeParen
  obtain he | ⟨hn, hs⟩ := h.symbolBeside
  · rw [List.tail_cons, List.tail_cons, he]
  · rw [List.tail_cons, List.tail_cons, hn, hs]
    rfl

theorem Aligned.isFusedLess (h : m.Aligned true ts us) (t u : Token) :
    isFusedLess (t :: ts) = isFusedLess (u :: us) := by
  unfold Grammar.isFusedLess
  obtain he | ⟨hn, hs⟩ := h.symbolBeside
  · rw [List.tail_cons, List.tail_cons, he]
  · rw [List.tail_cons, List.tail_cons, hn, hs]
    rfl

theorem Aligned.binaryAt (h : m.Aligned true ts us) (angled : Bool) :
    binaryAt? angled ts = binaryAt? angled us := by
  obtain ⟨t, u, _, _, rfl, rfl, hk, hl, ht⟩ | ⟨rfl, rfl | ⟨u, _, rfl, hb⟩⟩ := h.ahead
  · simp only [binaryAt?, hk, hl.lineStart, ht.binaryOfSymbol]
  · rfl
  · rcases hb.apart with ⟨hl, -⟩ | hk
    · simp [binaryAt?, hl]
    · simp [binaryAt?, hk, binaryOfSymbol?]

theorem Aligned.drop (h : m.Aligned true ts us) {n : Nat} (hn : n ≤ ts.length) :
    m.Aligned true (ts.drop n) (us.drop n) := by
  induction n generalizing ts us with
  | zero => exact h
  | succ n ih =>
    cases h with
    | nil => cases hn
    | cons _ _ _ ht => exact ih ht (Nat.le_of_succ_le_succ hn)

theorem Aligned.infixAt (h : m.Aligned true ts us) (angled : Bool) :
    infixAt? angled ts = infixAt? angled us := by
  unfold Grammar.infixAt?
  rw [← h.binaryAt angled]
  split
  next => rfl
  next op width hop =>
    obtain ⟨vs, ws, hts, hw, -⟩ := spelling_of_binaryAt? hop
    have hd : m.Aligned true (ts.drop width) (us.drop width) :=
      h.drop (by rw [hts, List.length_append]; omega)
    obtain ⟨t, u, _, _, ht, hu, hk, hl, -⟩ | ⟨ht, hu | ⟨u, _, hu, hb⟩⟩ := hd.ahead <;> rw [ht, hu]
    · simp only [hk, hl.lineStart]
    · rcases hb.apart with ⟨hl, -⟩ | hk
      · simp [hl]
      · simp [hk, TokenKind.beginsExpression]

theorem Aligned.attachment (h : m.Aligned true ts us) : attachment ts = attachment us := by
  obtain ⟨t, u, _, _, rfl, rfl, hk, hl, ht⟩ | ⟨rfl, rfl | ⟨u, _, rfl, hb⟩⟩ := h.ahead
  · simp only [Grammar.attachment, hk, hl.lineStart, hl.spaced, ht.isFusedLess t u]
  · rfl
  · rcases hb.apart with ⟨hl, hs⟩ | hk
    · simp [Grammar.attachment, hl, hs]
    · simp [Grammar.attachment, hk]

end Lists

theorem left_max (m : Seam) (a b : Nat) : m.left (max a b) = max (m.left a) (m.left b) := by
  have := m.left_le (a := a) (b := b)
  grind

theorem right_max (m : Seam) (a b : Nat) : m.right (max a b) = max (m.right a) (m.right b) := by
  have := m.right_le (a := a) (b := b)
  grind

theorem Same.start {a b : Span} (h : m.Same a b) : m.left a.start = m.right b.start :=
  congrArg Span.start h

theorem Same.stop {a b : Span} (h : m.Same a b) : m.left a.stop = m.right b.stop :=
  congrArg Span.stop h

theorem Same.span {a b : Span} (hs : m.left a.start = m.right b.start)
    (ht : m.left a.stop = m.right b.stop) : m.Same a b := by
  simp [Same, relocate, Span.relocate, hs, ht]

theorem Same.merge {a b a' b' : Span} (h : m.Same a b) (h' : m.Same a' b') :
    m.Same (a.merge a') (b.merge b') := by
  have hl := m.left_le (a := a.start) (b := a'.start)
  have hr := m.right_le (a := b.start) (b := b'.start)
  have hs := h.start
  have hs' := h'.start
  refine .span ?_ ?_
  · simp only [Span.merge_start]
    grind
  · simp only [Span.merge_stop, m.left_max, m.right_max, h.stop, h'.stop]

theorem Same.exprSpan {e e' : Expr} (h : m.Same e e') : m.Same e.span e'.span := by
  have h := congrArg Expr.span h
  simpa [Same, relocate] using h

theorem Same.pair {α β : Type} [Located α] [Located β] {v w : α} {v' w' : β} (h : m.Same v w)
    (h' : m.Same v' w') : m.Same (v, v') (w, w') :=
  Prod.ext h h'

theorem Like.start {t u : Token} (h : m.Like t u) : m.left t.span.start = m.right u.span.start :=
  h.span.start

theorem Like.describe {t u : Token} (h : m.Like t u) : t.describe = u.describe := by
  simp only [Token.describe, h.kind, h.text]

section States
variable {s S : State} {t : Token} {ts : List Token}

theorem Lock.length (h : m.Lock known s S) :
    S.rest.length = s.rest.length + m.tail.length :=
  h.rest.length

/-- Both lists have a token next, and the states after it correspond. -/
theorem Lock.front (h : m.Lock known s S) (hr : s.rest = t :: ts) : ∃ u us, S.rest = u :: us ∧
    m.Like t u ∧ (known = true → SameLayout t u) ∧ m.Lock true (s.past t ts) (S.past u us) := by
  have ha := h.rest
  rw [hr] at ha
  generalize hR : S.rest = us at ha
  cases ha with
  | cons hl hk hc ht =>
    refine ⟨_, _, rfl, hl, hk, ht, fun _ => ⟨t, _, rfl, rfl, hl.span.stop⟩, by simp, rfl, h.blocks,
      h.angled, h.comments, h.faults, ?_⟩
    exact (List.suffix_cons _ _).trans (hR ▸ h.suffix)

theorem Lock.nil (h : m.Lock known s S) (hr : s.rest = []) : S.rest = m.tail := by
  have ha := h.rest
  rw [hr] at ha
  generalize S.rest = us at ha
  cases ha
  rfl

theorem Lock.isAtOnLine (h : m.Lock true s S) {k : TokenKind} (hk : k ≠ .symbol .semicolon) :
    s.isAtOnLine k = S.isAtOnLine k := by
  unfold State.isAtOnLine State.onLine State.isAt State.kind?
  obtain ⟨t, u, _, _, hs, hS, hk, hl, -⟩ | ⟨hs, hS | ⟨u, _, hS, hb⟩⟩ := h.rest.ahead <;> rw [hs, hS]
  · simp [hk, hl.lineStart]
  · rcases hb.apart with ⟨hl, -⟩ | hu
    · simp [hl]
    · simp [hu, hk.symm]

/-- A question of the kind of the next token that keeps to the line. No such question is
about separators. -/
theorem Lock.kindOnLine (h : m.Lock true s S) {c : TokenKind → Bool}
    (hc : c (.symbol .semicolon) = false) :
    (match s.rest with
      | [] => false
      | t :: _ => !t.lineStart && c t.kind) =
    match S.rest with
      | [] => false
      | t :: _ => !t.lineStart && c t.kind := by
  obtain ⟨t, u, _, _, hs, hS, hk, hl, -⟩ | ⟨hs, hS | ⟨u, _, hS, hb⟩⟩ := h.rest.ahead <;> rw [hs, hS]
  · simp only [hk, hl.lineStart]
  · rcases hb.apart with ⟨hl, -⟩ | hu
    · simp [hl]
    · simp [hu, hc]

theorem Lock.nameNext (h : m.Lock true s S) : s.nameNext = S.nameNext :=
  h.kindOnLine (c := TokenKind.isName) rfl

theorem Lock.expressionNext (h : m.Lock true s S) : s.expressionNext = S.expressionNext :=
  h.kindOnLine (c := TokenKind.beginsExpression) rfl

theorem Lock.operandNext (h : m.Lock true s S) : s.operandNext = S.operandNext :=
  h.kindOnLine (c := TokenKind.beginsOperand) rfl

theorem Lock.mayEndStatement (h : m.Lock true s S) : s.mayEndStatement = S.mayEndStatement := by
  unfold State.mayEndStatement
  obtain ⟨t, u, _, _, hs, hS, hk, hl, -⟩ | ⟨hs, hS | ⟨u, _, hS, hb⟩⟩ := h.rest.ahead <;> rw [hs, hS]
  · simp only [hk, hl.lineStart]
  · rcases hb.apart with ⟨hl, -⟩ | hu
    · simp [hl]
    · simp [hu]

/-- Where the first list does not end too early, both lists go on or none does. -/
theorem Lock.both (h : m.Lock known s S) (hr : m.cut → s.rest ≠ []) :
    s.rest = [] ∧ S.rest = [] ∨ ∃ t ts u us, s.rest = t :: ts ∧ S.rest = u :: us ∧ m.Like t u ∧
      (known = true → SameLayout t u) := by
  cases hs : s.rest with
  | nil => exact .inl ⟨rfl, (h.nil hs).trans (m.uncut fun hc => hr hc hs).1⟩
  | cons t ts =>
    obtain ⟨u, us, hR, hl, hk, -⟩ := h.front hs
    exact .inr ⟨t, ts, u, us, rfl, hR, hl, hk⟩

theorem Lock.isEmpty (h : m.Lock known s S) (hr : m.cut → s.rest ≠ []) :
    s.rest.isEmpty = S.rest.isEmpty := by
  obtain ⟨hs, hS⟩ | ⟨t, ts, u, us, hs, hS, -, -⟩ := h.both hr <;> simp [hs, hS]

theorem Lock.kind? (h : m.Lock known s S) (hr : m.cut → s.rest ≠ []) : s.kind? = S.kind? := by
  obtain ⟨hs, hS⟩ | ⟨t, ts, u, us, hs, hS, hl, -⟩ := h.both hr
  · simp [State.kind?, hs, hS]
  · simp [State.kind?, hs, hS, hl.kind]

theorem Lock.isAt (h : m.Lock known s S) (hr : m.cut → s.rest ≠ []) (k : TokenKind) :
    s.isAt k = S.isAt k := by
  simp only [State.isAt, h.kind? hr]

theorem Lock.onLine (h : m.Lock true s S) (hr : m.cut → s.rest ≠ []) : s.onLine = S.onLine := by
  obtain ⟨hs, hS⟩ | ⟨t, ts, u, us, hs, hS, -, hk⟩ := h.both hr
  · simp [State.onLine, hs, hS]
  · simp [State.onLine, hs, hS, (hk rfl).lineStart]

theorem Lock.isBeforeKeyword (h : m.Lock known s S) (hr : s.rest ≠ []) (k : Keyword) :
    s.isBeforeKeyword k = S.isBeforeKeyword k := by
  obtain ⟨t, ts, hr⟩ := List.exists_cons_of_ne_nil hr
  obtain ⟨u, us, hR, -, -, hp⟩ := h.front hr
  have := hp.isAtOnLine (k := .keyword k) (by simp)
  simp only [State.isBeforeKeyword, hr, hR]
  simp only [State.isAtOnLine, State.onLine, State.isAt, State.kind?, State.past] at this
  cases ts <;> cases us <;> simp_all

/-- An `END` behind the end of the first list is not looked at. -/
theorem Lock.isAtEnd (h : m.Lock known s S) :
    s.isAt (.keyword .END) = S.isAt (.keyword .END) := by
  by_cases hr : s.rest = []
  · simp only [State.isAt, State.kind?, hr, h.nil hr]
    obtain ht | ⟨t, us, ht, hb⟩ := m.tail_cases
    · simp [ht]
    · simp [ht, hb.notEnd]
  · exact h.isAt (fun _ => hr) _

theorem Lock.atLoneEnd (h : m.Lock known s S) : s.atLoneEnd = S.atLoneEnd := by
  simp only [State.atLoneEnd, ← h.isAtEnd]
  cases hr : s.rest with
  | nil => simp [State.isAt, State.kind?, hr]
  | cons t ts => rw [h.isBeforeKeyword (by simp [hr])]

theorem Lock.atEndCase (h : m.Lock known s S) : s.atEndCase = S.atEndCase := by
  simp only [State.atEndCase, ← h.isAtEnd]
  cases hr : s.rest with
  | nil => simp [State.isAt, State.kind?, hr]
  | cons t ts => rw [h.isBeforeKeyword (by simp [hr])]

theorem Lock.closes (h : m.Lock known s S) (hr : m.cut → s.rest ≠ []) (block : Block) :
    closes s block = closes S block := by
  simp only [Grammar.closes, h.kind? hr, h.atLoneEnd, h.atEndCase]

theorem Lock.label? (h : m.Lock known s S) (hr : s.rest ≠ []) : m.Same (label? s) (label? S) := by
  obtain ⟨t, ts, hr⟩ := List.exists_cons_of_ne_nil hr
  obtain ⟨u, us, hR, hl, -, hp⟩ := h.front hr
  have hi := hp.rest.infixAt s.angled
  simp only [State.past] at hi
  simp only [Grammar.label?, hr, hR, hl.kind, ← h.angled, hi]
  split
  · have := hl.span
    simp_all [Same, relocate, Label.relocate, hl.text]
  · rfl

theorem Lock.since (h : m.Lock true s S) {a b : Nat} (hab : m.left a = m.right b) :
    m.Same (s.since a) (S.since b) := by
  obtain ⟨t, u, hs, hS, ht⟩ := h.previous rfl
  simp only [State.since, hs, hS]
  exact .span hab (by rw [m.left_max, m.right_max, ht, hab])

/-- Flags are unknown only before a token. -/
theorem Lock.known_of_nil (h : m.Lock known s S) (hr : s.rest = []) : known = true := by
  cases known with
  | true => rfl
  | false => exact absurd hr (h.fresh rfl).2

theorem Lock.endSpan (h : m.Lock true s S) : m.Same s.endSpan S.endSpan := by
  obtain ⟨t, u, hs, hS, ht⟩ := h.previous rfl
  simp only [State.endSpan, hs, hS]
  exact .span ht ht

/-- What is found instead of a token is the same, unless the first list has ended where the
second one goes on. -/
theorem Lock.unexpected (h : m.Lock known s S) (hr : m.cut → s.rest ≠ []) (d : String) :
    m.Same (s.unexpected d) (S.unexpected d) := by
  cases hs : s.rest with
  | nil =>
    have hS := (h.nil hs).trans (m.uncut fun hc => hr hc hs).1
    cases h.known_of_nil hs
    simpa [State.unexpected, hs, hS, Same, relocate, Fault.relocate] using h.endSpan
  | cons t ts =>
    obtain ⟨u, us, hR, hl, hk, -⟩ := h.front hs
    simp only [State.unexpected, hs, hR, ← h.begun, ← hl.describe]
    cases known with
    | false =>
      rw [(h.fresh rfl).1]
      simpa [Same, relocate, Fault.relocate] using hl.span
    | true =>
      obtain ⟨p, q, hs, hS, hp⟩ := h.previous rfl
      rw [← (hk rfl).lineStart, hs, hS]
      split
      · simpa [Same, relocate, Fault.relocate, Span.relocate] using hp
      · simpa [Same, relocate, Fault.relocate] using hl.span

end States

end PickSyntax.Parser.Seam
