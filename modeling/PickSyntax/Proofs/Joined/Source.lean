import PickSyntax.Proofs.Joined.Program
import PickSyntax.Proofs.Lexing.Streams

/-!
# Sources one behind the other

Two sources with a line feed or a separator between them are read as each of them is read
alone. The pieces of the first are the same up to its end, since no lexeme of it but an open
one could take more. What follows is read as from the start of a source: a statement may
begin there, and only the flags of the next token are its own.
-/
namespace PickSyntax

/-- What may stand between two sources. -/
inductive Joiner where
  | lineFeed | separator
  deriving DecidableEq, Repr

def Joiner.char : Joiner → Char
  | .lineFeed => '\n'
  | .separator => ';'

def Joiner.text (j : Joiner) : String := String.ofList [j.char]

/-- A line feed stands behind every comment. -/
def Lexing.LastLineClear (l : Lexing) : Prop :=
  ∀ t ∈ l.trivia, t.isComment = true → ∃ u ∈ l.trivia, u.kind = .newline ∧ t.span.start < u.span.start

theorem takeWhile_append_stop {α : Type} {p : α → Bool} (xs ys : List α) {y : α}
    (h : xs.dropWhile p ≠ [] ∨ p y = false) :
    (xs ++ y :: ys).takeWhile p = xs.takeWhile p ∧
      (xs ++ y :: ys).dropWhile p = xs.dropWhile p ++ y :: ys := by
  induction xs with
  | nil =>
    have hy : p y = false := h.resolve_left fun hne => hne rfl
    simp [hy]
  | cons x xs ih =>
    by_cases hx : p x = true
    · have h : xs.dropWhile p ≠ [] ∨ p y = false := by simpa [hx] using h
      simp [hx, ih h]
    · simp [hx]

namespace Lexeme

/-- The same lexeme, where the source goes on. -/
def extend (l : Lexeme) (ds : List Char) : Lexeme := { l with rest := l.rest ++ ds }

section Extend
variable {c : Char} {cs ds : List Char} {j : Joiner}

theorem run_extend {k : LexemeKind} {p : Char → Bool}
    (h : cs.dropWhile p ≠ [] ∨ p j.char = false) :
    run k p c (cs ++ j.char :: ds) = (run k p c cs).extend (j.char :: ds) := by
  obtain ⟨ht, hd⟩ := takeWhile_append_stop cs ds h
  simp [run, extend, ht, hd]

theorem number_extend : number c (cs ++ j.char :: ds) = (number c cs).extend (j.char :: ds) := by
  have hj : j.char.isDigit = false := by cases j <;> decide
  have hpoint : j.char ≠ '.' := by cases j <;> decide
  have hstop (xs : List Char) : xs.dropWhile Char.isDigit ≠ [] ∨ j.char.isDigit = false := .inr hj
  unfold number
  rw [(takeWhile_append_stop cs ds (hstop cs)).1, (takeWhile_append_stop cs ds (hstop cs)).2]
  cases hc : cs.dropWhile Char.isDigit with
  | nil =>
    simp only [List.nil_append]
    split
    next h => exact absurd (List.cons.inj h).1 hpoint
    next => exact run_extend (.inr hj)
  | cons d es =>
    by_cases hd : d = '.'
    · subst hd
      simp [extend, takeWhile_append_stop es ds (hstop es)]
    · simp only [List.cons_append]
      split
      next h => exact absurd (List.cons.inj h).1 hd
      next =>
        split
        next h => exact absurd (List.cons.inj h).1 hd
        next => exact run_extend (.inr hj)

theorem point_extend (h : ∀ x, (point c cs).kind ≠ .invalid x) :
    point c (cs ++ j.char :: ds) = (point c cs).extend (j.char :: ds) := by
  cases cs with
  | nil => exact absurd rfl (h c)
  | cons d es =>
    by_cases hd : d.isDigit = true
    · have hj : j.char.isDigit = false := by cases j <;> decide
      simpa [point, hd] using @run_extend c (d :: es) ds j .number Char.isDigit (.inr hj)
    · exact absurd (by simp [point, hd, single]) (h c)

theorem symbol_extend (y : Symbol) :
    symbol y c (cs ++ j.char :: ds) = (symbol y c cs).extend (j.char :: ds) := by
  have hj : j.char.isAlpha = false := by cases j <;> decide
  have hname : isSystemNameChar j.char = false := by cases j <;> decide
  cases cs with
  | nil => cases y <;> simp [symbol, single, extend, hj]
  | cons d es =>
    cases y with
    | atSign =>
      by_cases hd : d.isAlpha = true
      · simp [symbol, extend, hd, takeWhile_append_stop es ds (.inr hname)]
      · simp [symbol, single, extend, hd]
    | _ => simp [symbol, single, extend]

theorem quoted_extend (q : Quote) (hopen : ∀ q', (quoted q c cs).kind ≠ .openString q')
    (hinvalid : ∀ x, (quoted q c cs).kind ≠ .invalid x) :
    quoted q c (cs ++ j.char :: ds) = (quoted q c cs).extend (j.char :: ds) := by
  have unclosed (hk : (quoted q c cs).kind =
      if (cs.takeWhile (isInside q)).contains '\r' then .invalid c else .openString q) : False := by
    split at hk
    · exact hinvalid c hk
    · exact hopen q hk
  cases hc : cs.dropWhile (isInside q) with
  | nil => exact (unclosed (by simp only [quoted, hc])).elim
  | cons d es =>
    obtain ⟨ht, hd⟩ := takeWhile_append_stop cs ds (y := j.char)
      (.inl (by rw [hc]; exact List.cons_ne_nil d es))
    by_cases hq : d = q.char
    · simp [quoted, ht, hd, hc, hq, extend]
    · exact (unclosed (by simp only [quoted, hc, beq_iff_eq, if_neg hq])).elim

theorem ampersand_extend (h : (ampersand c cs).kind ≠ .ampersand) :
    ampersand c (cs ++ ds) = (ampersand c cs).extend ds := by
  unfold ampersand at h ⊢
  split at h
  · simp [extend]
  · simp [extend]
  · exact absurd rfl h

/-- A lexeme that is closed does not change when the source goes on behind a joiner. -/
theorem scan_extend (hamp : (scan c cs).kind ≠ .ampersand)
    (hopen : ∀ q, (scan c cs).kind ≠ .openString q) (hinvalid : ∀ x, (scan c cs).kind ≠ .invalid x)
    (hrem : (scan c cs).kind = .remark → isOnLine j.char = false ∨ (scan c cs).rest ≠ []) :
    scan c (cs ++ j.char :: ds) = (scan c cs).extend (j.char :: ds) := by
  cases hc : CharClass.of c <;> simp only [scan, hc] at hamp hopen hinvalid hrem ⊢
  case blank => exact run_extend (.inr (by cases j <;> decide))
  case newline => rfl
  case ampersand => exact ampersand_extend hamp
  case bang => exact run_extend (hrem rfl).symm
  case letter => exact run_extend (.inr (by cases j <;> decide))
  case digit => exact number_extend
  case point => exact point_extend hinvalid
  case quote q => exact quoted_extend q hopen hinvalid
  case symbol y => exact symbol_extend y
  case other => exact absurd rfl (hinvalid c)

end Extend
end Lexeme

namespace Lexer

/-- The lexer where more source stands behind what is left. -/
def extend (s : Lexer) (ds : List Char) : Lexer := { s with rest := s.rest ++ ds }

section Extend
variable {s : Lexer} {l : Lexeme} {ds : List Char} {j : Joiner}

theorem toLineEnd_extend (l : Lexeme) (ds : List Char) (h : isOnLine j.char = false ∨ l.toLineEnd.rest ≠ []) :
    (l.extend (j.char :: ds)).toLineEnd = l.toLineEnd.extend (j.char :: ds) := by
  obtain ⟨ht, hd⟩ := takeWhile_append_stop l.rest ds h.symm
  simp [Lexeme.toLineEnd, Lexeme.extend, ht, hd]

theorem opensRemark_extend (l : Lexeme) (ds : List Char) (h : isOnLine j.char = false ∨ l.rest ≠ []) :
    opensRemark (l.rest ++ j.char :: ds) = opensRemark l.rest := by
  cases hr : l.rest with
  | cons c cs => rfl
  | nil =>
    have hj : isOnLine j.char = false := h.resolve_right fun hne => hne hr
    cases j with
    | lineFeed => rfl
    | separator => cases hj

/-- What a piece must be for the source to go on behind it: no fault, and no comment that the
joiner would become part of. -/
structure Closed (j : Joiner) (r : Piece × Lexer) : Prop where
  fault : r.1.fault? = none
  comment : r.1.isComment = true → isOnLine j.char = false ∨ r.2.rest ≠ []

theorem step_extend (h : Closed j (s.step l)) : (s.extend (j.char :: ds)).step
    (l.extend (j.char :: ds)) = ((s.step l).1, (s.step l).2.extend (j.char :: ds)) := by
  have hstatement : (s.extend (j.char :: ds)).atStatement = s.atStatement := rfl
  obtain ⟨hf, hc⟩ := h
  unfold step at hf hc ⊢
  cases hk : l.kind <;> simp only [hk, Lexeme.extend] at hf hc ⊢
  case word =>
    cases hw : Keyword.ofWord? l.text with
    | none => rfl
    | some k =>
      simp only [hw] at hf hc ⊢
      by_cases hrem : k = .REM ∧ opensRemark l.rest = true
      · rw [if_pos hrem] at hc ⊢
        have hline := hc rfl
        have hopens := opensRemark_extend l ds (hline.imp_right fun hne he =>
          hne (by simp [remark, skip, Lexeme.toLineEnd, he]))
        rw [if_pos ⟨hrem.1, hopens.trans hrem.2⟩]
        have hend := toLineEnd_extend l ds hline
        unfold Lexeme.extend at hend
        rw [hk] at hend
        rw [hend]
        rfl
      · have hne : ¬(k = .REM ∧ opensRemark (l.rest ++ j.char :: ds) = true) := by
          rintro ⟨hk, hopens⟩
          cases hr : l.rest with
          | nil => exact hrem ⟨hk, by rw [hr]; rfl⟩
          | cons c cs =>
            rw [hr] at hopens
            exact hrem ⟨hk, by rw [hr]; exact hopens⟩
        rw [if_neg hrem, if_neg hne]
        rfl
  case symbol y =>
    by_cases hstar : y = .star ∧ s.atStatement = true
    · rw [if_pos hstar] at hc
      rw [if_pos hstar, if_pos (hstatement ▸ hstar)]
      have hend := toLineEnd_extend l ds (hc rfl)
      unfold Lexeme.extend at hend
      rw [hk] at hend
      rw [hend]
      rfl
    · rw [if_neg hstar, if_neg (hstatement ▸ hstar)]
      rfl
  all_goals rfl

theorem step_total (s : Lexer) (l : Lexeme) :
    (s.step l).2.offset + byteSize (s.step l).2.rest = s.offset + byteSize (l.text ++ l.rest) := by
  have hend := congrArg byteSize l.toLineEnd_split
  rw [byteSize_append, byteSize_append] at hend
  unfold step
  repeat' split
  all_goals simp [skip, emit, accept, remark, byteSize_append]; try omega

/-- The lexeme scanned where the source goes on is the one scanned where it ends. -/
theorem scan_extend {c : Char} {cs : List Char} (h : Closed j (s.step (Lexeme.scan c cs))) :
    Lexeme.scan c (cs ++ j.char :: ds) = (Lexeme.scan c cs).extend (j.char :: ds) := by
  obtain ⟨hf, hc⟩ := h
  unfold step at hf hc
  apply Lexeme.scan_extend
  · intro hk
    simp [hk, Piece.fault?] at hf
  · intro q hk
    simp [hk, Piece.fault?] at hf
  · intro x hk
    simp [hk, Piece.fault?] at hf
  · intro hk
    simp only [hk] at hc
    exact hc rfl

/-- No fault is among the pieces, and the joiner would not become part of a comment. -/
structure Joins (j : Joiner) (s : Lexer) : Prop where
  fault : ∀ p ∈ s.pieces, p.fault? = none
  comment : isOnLine j.char = true → ∀ p ∈ s.pieces, p.isComment = true →
    ∃ q ∈ s.pieces, p.span.start < q.span.start

theorem Joins.closed {c : Char} {cs : List Char} (h : Joins j s) (hr : s.rest = c :: cs) :
    Closed j (s.step (Lexeme.scan c cs)) := by
  obtain ⟨hf, hc⟩ := h
  rw [pieces_cons hr] at hf hc
  refine ⟨hf _ (List.mem_cons_self ..), fun hcomment => ?_⟩
  cases hj : isOnLine j.char with
  | false => exact .inl rfl
  | true =>
    -- Behind the comment stands another piece, so something is left.
    refine .inr fun hnil => ?_
    obtain ⟨q, hq, hlt⟩ := hc hj _ (List.mem_cons_self ..) hcomment
    rw [pieces_nil hnil, List.mem_singleton] at hq
    exact Nat.lt_irrefl _ (hq ▸ hlt)

theorem Joins.next {c : Char} {cs : List Char} (h : Joins j s) (hr : s.rest = c :: cs) :
    Joins j (s.step (Lexeme.scan c cs)).2 := by
  have hlaid := pieces_laid s
  obtain ⟨hf, hc⟩ := h
  rw [pieces_cons hr] at hf hc hlaid
  refine ⟨fun p hp => hf p (List.mem_cons_of_mem _ hp), fun hj p hp hcomment => ?_⟩
  obtain ⟨q, hq, hlt⟩ := hc hj p (List.mem_cons_of_mem _ hp) hcomment
  obtain rfl | hq := List.mem_cons.mp hq
  · have happart := (List.pairwise_cons.mp hlaid.apart).1 p hp
    omega
  · exact ⟨q, hq, hlt⟩

/-- The last token does not reach beyond the lexer. -/
def Behind (s : Lexer) : Prop := ∀ t, s.previous = some t → t.span.stop ≤ s.offset

theorem step_behind (h : s.Behind) (l : Lexeme) : (s.step l).2.Behind := by
  have skips (l : Lexeme) : (s.skip l).Behind := fun t ht => Nat.le_trans (h t ht) (Nat.le_add_right ..)
  have accepts (k : TokenKind) : (s.accept (s.tokenOf k l) l).Behind := by
    intro t ht
    cases ht
    exact Nat.le_refl _
  unfold step
  cases l.kind <;> dsimp only [emit, remark]
  case word => split; exact accepts _; split; exact skips _; exact accepts _
  case symbol y => split; exact skips _; exact accepts _
  case newline => exact skips l
  all_goals first
    | exact skips l
    | exact accepts _

/-- The pieces of a source are the first ones where it goes on behind a joiner, and the lexer
that has read them does not depend on what follows. -/
theorem pieces_extend (h : Joins j s) (hs : s.Behind) : ∃ e : Lexer, e.rest = [] ∧
    e.offset = s.offset + byteSize s.rest ∧ e.Behind ∧
    ∀ ds, (s.extend (j.char :: ds)).pieces = s.pieces ++ (e.extend (j.char :: ds)).pieces := by
  induction s using pieces_induction with
  | nil s hr => exact ⟨s, hr, by simp [hr], hs, fun ds => by rw [pieces_nil hr, List.nil_append]⟩
  | cons s c cs hr ih =>
    have hclosed := h.closed hr
    obtain ⟨e, he, hoffset, hbehind, hpieces⟩ := ih (h.next hr) (step_behind hs _)
    refine ⟨e, he, ?_, hbehind, fun ds => ?_⟩
    · rw [hoffset, step_total, Lexeme.scan_split, hr]
    · have hrest : (s.extend (j.char :: ds)).rest = c :: (cs ++ j.char :: ds) := by
        simp [extend, hr]
      rw [pieces_cons hrest, pieces_cons hr, scan_extend hclosed, step_extend hclosed, hpieces]
      rfl

end Extend

/-- The second lexer reads the same `n` bytes further on. Before the first token it does so
where a statement may begin. -/
structure Tracks (n : Nat) (known : Bool) (s S : Lexer) : Prop where
  rest : S.rest = s.rest
  offset : S.offset = s.offset + n
  fresh : known = false → s.previous = none ∧
    ∀ u, S.previous = some u → u.kind.opensStatementList = true ∨ S.lineStart = true
  previous : known = true → ∃ t u, s.previous = some t ∧ S.previous = some u ∧ t.kind = u.kind ∧
    u.span.stop = t.span.stop + n
  lineStart : known = true → S.lineStart = s.lineStart

section Tracks
variable {n : Nat} {known : Bool} {s S : Lexer} {l : Lexeme} {whole : List Token}

open PickSyntax.Parser

theorem Tracks.atStatement (h : Tracks n known s S) : S.atStatement = s.atStatement := by
  cases known with
  | false =>
    obtain ⟨hs, hS⟩ := h.fresh rfl
    have hfresh : s.atStatement = true := by simp [Lexer.atStatement, hs]
    rw [hfresh]
    unfold Lexer.atStatement
    split
    next => rfl
    next u hu =>
      obtain hk | hl := hS u hu
      · simp [hk]
      · simp [hl]
  | true =>
    obtain ⟨t, u, ht, hu, hk, -⟩ := h.previous rfl
    simp [Lexer.atStatement, ht, hu, hk, h.lineStart rfl]

theorem Tracks.spanOf (h : Tracks n known s S) (text : List Char) :
    S.spanOf text = (s.spanOf text).relocate (· + n) := by
  simp only [Lexer.spanOf, Span.relocate, h.offset]
  congr 1
  omega

theorem Tracks.skip (h : Tracks n known s S) (l : Lexeme) : Tracks n known (s.skip l) (S.skip l) where
  rest := rfl
  offset := by
    simp only [Lexer.skip, h.offset]
    omega
  fresh := h.fresh
  previous := h.previous
  lineStart := h.lineStart

theorem Tracks.newline (h : Tracks n known s S) :
    Tracks n known { s with lineStart := true } { S with lineStart := true } where
  rest := h.rest
  offset := h.offset
  fresh hk := ⟨(h.fresh hk).1, fun _ _ => .inr rfl⟩
  previous := h.previous
  lineStart _ := rfl

theorem Tracks.accept (h : Tracks n known s S) (k : TokenKind) (l : Lexeme) :
    Tracks n true (s.accept (s.tokenOf k l) l) (S.accept (S.tokenOf k l) l) where
  rest := rfl
  offset := (h.skip l).offset
  fresh := by simp
  previous _ := ⟨_, _, rfl, rfl, rfl, congrArg Span.stop (h.spanOf l.text)⟩
  lineStart _ := rfl

theorem Tracks.like (h : Tracks n known s S) (k : TokenKind) (l : Lexeme) :
    (Seam.shift n whole).Like (s.tokenOf k l) (S.tokenOf k l) where
  kind := rfl
  text := rfl
  span := (h.spanOf l.text).symm

theorem Tracks.layout (h : Tracks n true s S) (k : TokenKind) (l : Lexeme) :
    Seam.SameLayout (s.tokenOf k l) (S.tokenOf k l) where
  spaced := by
    obtain ⟨t, u, ht, hu, -, hstop⟩ := h.previous rfl
    simp only [tokenOf, ht, hu, hstop, h.offset, bne, beq_eq_decide]
    simp
  lineStart := (h.lineStart rfl).symm

/-- A comment is dropped together with its carriage returns, and both lexers go on. -/
theorem Tracks.remark (h : Tracks n known s S) (mark : CommentMark) (l : Lexeme) :
    (S.remark mark l).1.comment? =
      (s.remark mark l).1.comment?.map (Comment.relocate (· + n)) := by
  simp only [Lexer.remark, h.atStatement, h.spanOf]
  cases s.atStatement <;> rfl

/-- Comments and faults correspond. -/
theorem Tracks.step_views (h : Tracks n known s S) (l : Lexeme) :
    (S.step l).1.comment? = (s.step l).1.comment?.map (Comment.relocate (· + n)) ∧
      (S.step l).1.fault? = (s.step l).1.fault?.map (Fault.relocate (· + n)) := by
  unfold Lexer.step
  rw [h.atStatement]
  cases l.kind <;> dsimp only
  case word =>
    cases Keyword.ofWord? l.text with
    | none => exact ⟨rfl, rfl⟩
    | some k =>
      dsimp only
      split
      · exact ⟨h.remark .rem l.toLineEnd, rfl⟩
      · exact ⟨rfl, rfl⟩
  case symbol y =>
    split
    · exact ⟨h.remark .star l.toLineEnd, rfl⟩
    · exact ⟨rfl, rfl⟩
  case remark => exact ⟨h.remark .bang l, rfl⟩
  case ampersand => exact ⟨rfl, by simp [Piece.fault?, h.spanOf, Fault.relocate]⟩
  case invalid c => exact ⟨rfl, by simp [Piece.fault?, h.spanOf, Fault.relocate]⟩
  case openString q =>
    exact ⟨rfl, by simp [Piece.fault?, Lexer.tokenOf, h.spanOf, Fault.relocate]⟩
  all_goals exact ⟨rfl, rfl⟩

/-- A step yields a token in both lexers, after which the flags are known, or in neither. -/
theorem Tracks.step_token (h : Tracks n known s S) (l : Lexeme) (whole : List Token) :
    (∃ t u, (s.step l).1.token? = some t ∧ (S.step l).1.token? = some u ∧
      (Seam.shift n whole).Like t u ∧ (known = true → Seam.SameLayout t u) ∧
      Tracks n true (s.step l).2 (S.step l).2) ∨
    ((s.step l).1.token? = none ∧ (S.step l).1.token? = none ∧
      Tracks n known (s.step l).2 (S.step l).2) := by
  have emitted (k : TokenKind) (l : Lexeme) : (Seam.shift n whole).Like (s.tokenOf k l) (S.tokenOf k l) ∧
      (known = true → Seam.SameLayout (s.tokenOf k l) (S.tokenOf k l)) ∧
      Tracks n true (s.accept (s.tokenOf k l) l) (S.accept (S.tokenOf k l) l) := by
    refine ⟨h.like k l, ?_, h.accept k l⟩
    rintro rfl
    exact h.layout k l
  unfold Lexer.step
  rw [h.atStatement]
  cases l.kind <;> dsimp only
  case word =>
    cases Keyword.ofWord? l.text with
    | none => exact .inl ⟨_, _, rfl, rfl, emitted .identifier l⟩
    | some k =>
      dsimp only
      split
      · exact .inr ⟨rfl, rfl, h.skip l.toLineEnd⟩
      · exact .inl ⟨_, _, rfl, rfl, emitted (.keyword k) l⟩
  case symbol y =>
    split
    · exact .inr ⟨rfl, rfl, h.skip l.toLineEnd⟩
    · exact .inl ⟨_, _, rfl, rfl, emitted (.symbol y) l⟩
  case newline => exact .inr ⟨rfl, rfl, (h.skip l).newline⟩
  case systemName => exact .inl ⟨_, _, rfl, rfl, emitted .systemName l⟩
  case number => exact .inl ⟨_, _, rfl, rfl, emitted .number l⟩
  case string q => exact .inl ⟨_, _, rfl, rfl, emitted (.string q) l⟩
  case openString q => exact .inl ⟨_, _, rfl, rfl, emitted (.string q) l⟩
  all_goals exact .inr ⟨rfl, rfl, h.skip l⟩

/-- All pieces correspond. -/
theorem Tracks.pieces (h : Tracks n known s S) (whole : List Token) :
    (Seam.shift n whole).Aligned known (s.pieces.filterMap Piece.token?)
        (S.pieces.filterMap Piece.token?) ∧
      S.pieces.filterMap Piece.comment? =
        (s.pieces.filterMap Piece.comment?).map (Comment.relocate (· + n)) ∧
      S.pieces.filterMap Piece.fault? =
        (s.pieces.filterMap Piece.fault?).map (Fault.relocate (· + n)) := by
  induction s using pieces_induction generalizing known S with
  | nil s hr =>
    rw [pieces_nil hr, pieces_nil (h.rest.trans hr)]
    exact ⟨.nil, rfl, rfl⟩
  | cons s c cs hr ih =>
    rw [pieces_cons hr, pieces_cons (h.rest.trans hr)]
    generalize Lexeme.scan c cs = l at ih ⊢
    obtain ⟨hcomment, hfault⟩ := h.step_views l
    simp only [List.filterMap_cons, hcomment, hfault]
    obtain ⟨t, u, ht, hu, hlike, hlayout, hnext⟩ | ⟨ht, hu, hnext⟩ := h.step_token l whole
    · obtain ⟨htokens, hcs, hfs⟩ := ih hnext
      rw [ht, hu, hcs, hfs]
      refine ⟨.cons hlike hlayout (by simp [Seam.shift]) htokens, ?_, ?_⟩
      · cases (s.step l).1.comment? <;> rfl
      · cases (s.step l).1.fault? <;> rfl
    · obtain ⟨htokens, hcs, hfs⟩ := ih hnext
      rw [ht, hu, hcs, hfs]
      refine ⟨htokens, ?_, ?_⟩
      · cases (s.step l).1.comment? <;> rfl
      · cases (s.step l).1.fault? <;> rfl

end Tracks

end Lexer

theorem Parser.Seam.Aligned.head_kind {m : Parser.Seam} {known : Bool} {ts us : List Token} {u : Token}
    (h : m.Aligned known ts us) (hm : m.tail = []) (hu : us.head? = some u) :
    ∃ t, ts.head? = some t ∧ t.kind = u.kind := by
  cases h with
  | nil =>
    rw [hm] at hu
    cases hu
  | cons hlike _ _ _ =>
    cases hu
    exact ⟨_, rfl, hlike.kind⟩

section Joint
variable {a b : String} {j : Joiner}

open PickSyntax.Parser

/-- The bytes before the second source. -/
def Joiner.offset (j : Joiner) (a : String) : Nat := byteSize (a.toList ++ [j.char])

theorem lex_joins (hf : (lex a).faults = []) (hc : j = .separator → (lex a).LastLineClear) :
    (Lexer.start a.toList).Joins j where
  fault p hp := List.filterMap_eq_nil_iff.mp hf p hp
  comment hj p hp hcomment := by
    have hsep : j = .separator := by
      cases j with
      | lineFeed => cases hj
      | separator => rfl
    obtain ⟨t, ht, hspan, hiscomment⟩ : ∃ t, p.trivia? = some t ∧ p.span = t.span ∧
        t.isComment = true := by
      cases p with
      | trivia t => exact ⟨t, rfl, rfl, hcomment⟩
      | comment c _ => exact ⟨_, rfl, rfl, rfl⟩
      | _ => cases hcomment
    obtain ⟨u, hu, -, hlt⟩ := hc hsep t (List.mem_filterMap.mpr ⟨p, hp, ht⟩) hiscomment
    obtain ⟨q, hq, hview⟩ := List.mem_filterMap.mp hu
    exact ⟨q, hq, by rwa [hspan, (Piece.span_of_trivia? hview).1]⟩

/-- The lexer that stands behind the joiner. -/
theorem tracks_start {S : Lexer} {n : Nat} (hrest : S.rest = b.toList) (hoffset : S.offset = n)
    (hopens : ∀ u, S.previous = some u → u.kind.opensStatementList = true ∨ S.lineStart = true) :
    Lexer.Tracks n false (Lexer.start b.toList) S where
  rest := hrest
  offset := by simp [Lexer.start, hoffset]
  fresh _ := ⟨rfl, hopens⟩
  previous := by simp
  lineStart := by simp

/-- Everything read from the first source stands before its end. -/
theorem stop_le_of_lex {t : Token} (ht : t ∈ (lex a).tokens) : t.span.stop ≤ byteSize a.toList := by
  obtain ⟨p, hp, hview⟩ := List.mem_filterMap.mp ht
  have hle := (Lexer.pieces_laid (Lexer.start a.toList)).stop_le hp
  rw [Piece.span_of_token? hview] at hle
  simpa [Lexer.start] using hle

theorem start_lt_of_lex {c : Comment} (hc : c ∈ (lex a).comments) :
    c.span.start < byteSize a.toList := by
  obtain ⟨p, hp, hview⟩ := List.mem_filterMap.mp hc
  obtain ⟨held, hne, ⟨before, after, hs, hb, hstop⟩, -⟩ :=
    (Lexer.pieces_laid (Lexer.start a.toList)).holds [] rfl rfl hp
  have hspan : p.span = c.span := by
    cases p with
    | comment d standing =>
      cases standing <;> cases hview
      rfl
    | _ => cases hview
  have hpos := byteSize_pos hne
  have hsize := congrArg byteSize hs
  simp only [byteSize_append, byteSize_nil, hb, hspan, Lexer.start] at hsize
  omega

/-- The joint, where the lexer behind the joiner is known. -/
theorem joint_of_pieces {S : Lexer} {p : Piece}
    (hpieces : (Lexer.start (a ++ j.text ++ b).toList).pieces =
      (Lexer.start a.toList).pieces ++ p :: S.pieces)
    (htracks : Lexer.Tracks (j.offset a) false (Lexer.start b.toList) S)
    (hp : p.comment? = none ∧ p.fault? = none)
    (hsep : ∀ t, p.token? = some t → t.kind = .symbol .semicolon ∧ t.span.start = byteSize a.toList)
    (hfirst : p.token? = none → ∀ t, (S.pieces.filterMap Piece.token?).head? = some t → Boundary t) :
    (lex a).Joint (j.offset a) (lex b) p.token?.toList (S.pieces.filterMap Piece.token?)
      (lex (a ++ j.text ++ b)) := by
  have hle : byteSize a.toList ≤ j.offset a := by simp [Joiner.offset]
  have hstart (t : Token) (ht : (p.token?.toList ++ S.pieces.filterMap Piece.token?).head? = some t) :
      byteSize a.toList ≤ t.span.start := by
    cases hk : p.token? with
    | some u =>
      obtain rfl : u = t := by simpa [hk] using ht
      exact Nat.le_of_eq (hsep u hk).2.symm
    | none =>
      have ht : t ∈ S.pieces.filterMap Piece.token? :=
        List.mem_of_mem_head? (by simpa [hk] using ht)
      have hbound := ((Lexer.pieces_tokens S).1.bound t ht).1
      have hoffset := htracks.offset
      simp only [Lexer.start] at hoffset
      omega
  obtain ⟨htokens, hcomments, hfaults⟩ := htracks.pieces (S.pieces.filterMap Piece.token?)
  constructor
  · simp only [lex, Lexing.ofPieces, hpieces, List.filterMap_append, List.filterMap_cons]
    cases p.token? <;> rfl
  · exact htokens
  · simp only [lex, Lexing.ofPieces, hpieces, List.filterMap_append, List.filterMap_cons, hp.1,
      hcomments]
    rfl
  · simp only [lex, Lexing.ofPieces, hpieces, List.filterMap_append, List.filterMap_cons, hp.2,
      hfaults]
    rfl
  · cases hk : p.token? with
    | none => exact .inl rfl
    | some t => exact .inr ⟨t, rfl, (hsep t hk).1⟩
  · intro t ht
    cases hk : p.token? with
    | none => exact hfirst hk t (by simpa [hk] using ht)
    | some u =>
      obtain rfl : u = t := by simpa [hk] using ht
      exact ⟨.inr (hsep u hk).1, by simp [(hsep u hk).1]⟩
  · intro t ht
    obtain ht | ht := List.mem_append.mp ht
    · have hstop := stop_le_of_lex ht
      have hbound := ((lex_ordered a).bound t ht).2
      omega
    · rw [(hsep t (by simpa using ht)).2]
      exact hle
  · intro c hc t ht
    exact Nat.lt_of_lt_of_le (start_lt_of_lex hc) (hstart t ht)

theorem lex_joined (hf : (lex a).faults = []) (hc : j = .separator → (lex a).LastLineClear)
    (hb : ∀ t, (lex b).tokens.head? = some t → t.kind ≠ .keyword .END) : ∃ sep us,
    (lex a).Joint (j.offset a) (lex b) sep us (lex (a ++ j.text ++ b)) ∧
      (sep = [] → j = .lineFeed) := by
  obtain ⟨e, he, hoffset, hbehind, hpieces⟩ :=
    Lexer.pieces_extend (lex_joins hf hc) (fun t ht => by cases ht)
  have hpieces := hpieces b.toList
  have htext : (a ++ j.text ++ b).toList = a.toList ++ j.char :: b.toList := by
    simp [Joiner.text]
  have hoffset : e.offset = byteSize a.toList := by simpa [Lexer.start] using hoffset
  have hrest : (e.extend (j.char :: b.toList)).rest = j.char :: b.toList := by
    simp [Lexer.extend, he]
  rw [Lexer.pieces_cons hrest] at hpieces
  change (Lexer.start (a.toList ++ j.char :: b.toList)).pieces = _ at hpieces
  rw [← htext] at hpieces
  have hn : j.offset a = byteSize a.toList + byteSize [j.char] := byteSize_append ..
  cases j with
  | separator =>
    refine ⟨_, _, joint_of_pieces hpieces (tracks_start rfl ?_ ?_) ⟨rfl, rfl⟩ ?_ ?_, fun h => by cases h⟩
    · rw [hn, ← hoffset]
      rfl
    · intro u hu
      cases hu
      exact .inl rfl
    · intro t ht
      cases ht
      exact ⟨rfl, hoffset⟩
    · intro h
      cases h
  | lineFeed =>
    have hoff : ((e.extend ('\n' :: b.toList)).step (Lexeme.scan '\n' b.toList)).2.offset =
        Joiner.lineFeed.offset a := by
      rw [hn, ← hoffset]
      rfl
    have htracks : Lexer.Tracks (Joiner.lineFeed.offset a) false (Lexer.start b.toList)
        ((e.extend ('\n' :: b.toList)).step (Lexeme.scan '\n' b.toList)).2 :=
      tracks_start rfl hoff fun u hu => .inr rfl
    refine ⟨_, _, joint_of_pieces hpieces htracks ⟨rfl, rfl⟩ (fun t ht => by cases ht) ?_, fun _ => rfl⟩
    intro _ t ht
    have hlt : e.offset < Joiner.lineFeed.offset a := by
      have hpos : 0 < byteSize [Joiner.lineFeed.char] := byteSize_pos (by simp)
      omega
    have hline := Lexer.head_lineStart rfl t ht
    have hspaced := Lexer.head_spaced (hoff ▸ Nat.lt_of_le_of_lt (Nat.zero_le _) hlt)
      (fun u hu => hoff ▸ Nat.lt_of_le_of_lt (hbehind u hu) hlt) t ht
    obtain ⟨u, hu, hkind⟩ := (htracks.pieces []).1.head_kind rfl ht
    exact ⟨.inl ⟨hline, hspaced⟩, hkind ▸ hb u hu⟩

/-- The faults that the grammar finds in a source. -/
def grammarFaults (source : String) : List Fault :=
  (State.ofLexing (lex source) true).readProgram.2.faults

theorem faults_of_diagnostics (h : (parse a).diagnostics = []) :
    (lex a).faults = [] ∧ grammarFaults a = [] :=
  Diagnostic.nil_of_report h

/-- Behind the end a reference that is written across it goes on with a sign or with a closing
parenthesis. -/
theorem head_of_spansTail {whole : List Token} {n : Nat} (h : SpansTail whole n) :
    ∃ t, (whole.drop (whole.length - n)).head? = some t ∧
      ((Grammar.unaryOf? t.kind).isSome = true ∨ t.kind = .symbol .rightParen) := by
  obtain ⟨before, ts, t, us, after, _, _, _, _, _, rfl, -, rfl, -, -, x, -, hx⟩ := h
  refine ⟨t, ?_, ?_⟩
  · rw [← List.append_assoc, List.drop_left' (by simp; omega)]
    rfl
  · cases x with
    | unary op operand span => exact .inl (by rw [hx.1]; rfl)
    | call word args span =>
      cases args with
      | nil => exact .inr hx.1
      | cons => exact hx.elim
    | _ => exact hx.elim

/-- No expression is written across a separator. -/
theorem not_spansTail {sep : Token} {ts us : List Token} (hsep : sep.kind = .symbol .semicolon) :
    ¬SpansTail (ts ++ sep :: us) (us.length + 1) := by
  intro h
  obtain ⟨t, ht, hcross⟩ := head_of_spansTail h
  rw [List.drop_left' (by simp)] at ht
  cases ht
  simp [hsep, Grammar.unaryOf?] at hcross

/-- Parsing goes source by source. A source without diagnostics, a line feed or a separator,
and any source that does not begin with `END` are read as the first and then the second; all
faults are those of the second. A comment must not swallow the separator, and no reference `NAME<…>`
may run across the line feed by a sign or a closing parenthesis that begins the second source. -/
theorem parse_joined (j : Joiner) (a b : String) (ha : (parse a).diagnostics = [])
    (hb : ∀ t, (lex b).tokens.head? = some t → t.kind ≠ .keyword .END)
    (hc : j = .separator → (lex a).LastLineClear)
    (hu : j = .lineFeed → ¬SpansTail (lex (a ++ j.text ++ b)).tokens (lex b).tokens.length) :
    (parse (a ++ j.text ++ b)).program.items =
        (parse a).program.items ++ relocate (· + j.offset a) (parse b).program.items ∧
      (lex (a ++ j.text ++ b)).faults = relocate (· + j.offset a) (lex b).faults ∧
      grammarFaults (a ++ j.text ++ b) = relocate (· + j.offset a) (grammarFaults b) := by
  obtain ⟨hlexical, hgrammar⟩ := faults_of_diagnostics ha
  obtain ⟨sep, us, hjoint, hsep⟩ := lex_joined hlexical hc hb
  have hspan : ¬SpansTail (lex (a ++ j.text ++ b)).tokens (sep ++ us).length := by
    obtain rfl | ⟨y, rfl, hy⟩ := hjoint.separators
    · have hlength : us.length = (lex b).tokens.length := Seam.Aligned.length hjoint.shifted
      rw [List.nil_append, hlength]
      exact hu (hsep rfl)
    · rw [hjoint.tokens]
      exact not_spansTail hy
  obtain ⟨hitems, hfaults⟩ :=
    hjoint.read_both (lex_ordered _) (lex_streams _).spaced hspan hgrammar
  refine ⟨hitems, ?_, hfaults⟩
  rw [hjoint.faults, hlexical, List.nil_append]

/-- Where no sign and no closing parenthesis follows there is no reference to run across. -/
theorem not_spansTail_of_head {whole : List Token} {n : Nat}
    (h : ∀ t ∈ (whole.drop (whole.length - n)).head?,
      Grammar.unaryOf? t.kind = none ∧ t.kind ≠ .symbol .rightParen) : ¬SpansTail whole n := by
  intro hspan
  obtain ⟨t, ht, hcross⟩ := head_of_spansTail hspan
  obtain ⟨hsign, hparen⟩ := h t ht
  simp [hsign, hparen] at hcross

/-- A second line that is not finished, and a comment that a later line leaves behind. -/
theorem parse_joined_unfinished :
    ((parse "X = 1\nY =").program.items = (parse "X = 1").program.items ++
        relocate (· + 6) (parse "Y =").program.items ∧
      (lex "X = 1\nY =").faults = relocate (· + 6) (lex "Y =").faults ∧
      grammarFaults "X = 1\nY =" = relocate (· + 6) (grammarFaults "Y =")) ∧
    ((parse "X = 1 ! one\nCRT X;Y =").program.items = (parse "X = 1 ! one\nCRT X").program.items ++
        relocate (· + 18) (parse "Y =").program.items ∧
      (lex "X = 1 ! one\nCRT X;Y =").faults = relocate (· + 18) (lex "Y =").faults ∧
      grammarFaults "X = 1 ! one\nCRT X;Y =" = relocate (· + 18) (grammarFaults "Y =")) := by
  refine ⟨parse_joined .lineFeed "X = 1" "Y =" (by decide +kernel) (by decide +kernel) (by simp)
      fun _ => not_spansTail_of_head (by decide +kernel),
    parse_joined .separator "X = 1 ! one\nCRT X" "Y =" (by decide +kernel) (by decide +kernel)
      (fun _ => ?_) (by simp)⟩
  unfold Lexing.LastLineClear
  decide +kernel

/-- A sign at the front of the second source is read as an operand of the first, where that
lets a reference close. -/
theorem not_parse_joined_sign : ¬∀ (j : Joiner) (a b : String), (parse a).diagnostics = [] →
    (∀ t, (lex b).tokens.head? = some t → t.kind ≠ .keyword .END) →
    (j = .separator → (lex a).LastLineClear) →
    (parse (a ++ j.text ++ b)).program.items =
        (parse a).program.items ++ relocate (· + j.offset a) (parse b).program.items ∧
      (lex (a ++ j.text ++ b)).faults = relocate (· + j.offset a) (lex b).faults ∧
      grammarFaults (a ++ j.text ++ b) = relocate (· + j.offset a) (grammarFaults b) := by
  intro h
  have hfaults := (h .lineFeed "PRINT X<1," "-2>" (by decide +kernel) (by decide +kernel) (by simp)).2.2
  revert hfaults
  decide +kernel

end Joint
end PickSyntax
