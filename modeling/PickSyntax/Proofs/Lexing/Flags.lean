import Mathlib.Data.List.Basic
import Mathlib.Data.List.Induction
import PickSyntax.Proofs.Lexing.Streams

/-!
# Layout flags and the places where a statement may begin

The lexer remembers two things, the last token and whether a line has ended since, and what it
remembers decides the two layout flags of a token, whether a star opens a comment, and whether a
comment stands by itself. All of that can also be read off what the lexer leaves behind: the
ranges of the tokens and of the line feeds among the trivia.

`Lexer.remember` is the memory as a function of the pieces read so far. That it is the memory is a
fact of one step, and what it says of ranges follows from the order of the pieces.
-/
namespace PickSyntax

/-- The kinds of token behind which a statement may begin on the same line. -/
def statementOpeners : List TokenKind :=
  [.symbol .semicolon, .keyword .THEN, .keyword .ELSE, .keyword .LOOP, .keyword .DO,
    .keyword .REPEAT, .keyword .END]

theorem TokenKind.opensStatementList_eq (k : TokenKind) :
    k.opensStatementList = decide (k ∈ statementOpeners) := by
  cases k with
  | keyword k => cases k <;> rfl
  | symbol y => cases y <;> rfl
  | _ => rfl

namespace Lexing

/-- A line feed lies between the two offsets. -/
def breaksBetween (l : Lexing) (i j : Nat) : Bool :=
  l.trivia.any fun x => x.kind == .newline && i ≤ x.span.start && x.span.stop ≤ j

/-- The last of the tokens that end before the offset. -/
def lastBefore? (l : Lexing) (offset : Nat) : Option Token :=
  (l.tokens.filter fun t => t.span.stop ≤ offset).getLast?

/-- No token stands before the offset, or the last one opens a statement, or a line feed lies
between that token and the offset. -/
def mayBeginStatement (l : Lexing) (offset : Nat) : Bool :=
  match l.lastBefore? offset with
  | none => true
  | some t => decide (t.kind ∈ statementOpeners) || l.breaksBetween t.span.stop offset

/-- The layout flags, and what stars and comments are taken for, are as the ranges of tokens and
line feeds have it. The token before another one is the last of those in front of it. -/
structure Flagged (source : List Char) (l : Lexing) : Prop where
  lineStart : ∀ us t vs, l.tokens = us ++ t :: vs →
    (t.lineStart = true ↔ ∀ u ∈ us.getLast?, l.breaksBetween u.span.stop t.span.start = true)
  spaced : ∀ us t vs, l.tokens = us ++ t :: vs →
    (t.spaced = true ↔ t.span.start ≠ (us.getLast?.map fun u => u.span.stop).getD 0)
  /-- A star is a token only within a statement. -/
  star : ∀ us t vs, l.tokens = us ++ t :: vs → t.kind = .symbol .star →
    t.lineStart = false ∧ ∃ u ∈ us.getLast?, u.kind ∉ statementOpeners
  /-- The comments that stand by themselves are those of the trivia that may begin a
  statement. -/
  comments : l.comments.map (fun c => ⟨.comment c.mark, c.span⟩) =
    l.trivia.filter fun x => x.isComment && l.mayBeginStatement x.span.start
  texts : ∀ c ∈ l.comments, c.span.Holds source c.text.toList
  stars : ∀ x ∈ l.trivia, x.kind = .comment .star → l.mayBeginStatement x.span.start = true

end Lexing

def Piece.isNewline : Piece → Bool
  | .trivia t => t.kind == .newline
  | _ => false

namespace Lexer
variable {s : Lexer} {l : Lexeme} {t : Token} {c : Comment} {standing : Bool}

/-- The last token and whether a line has ended since, one piece later. -/
def remember (memory : Option Token × Bool) (p : Piece) : Option Token × Bool :=
  match p.token? with
  | some t => (some t, false)
  | none => (memory.1, memory.2 || p.isNewline)

theorem step_remember (s : Lexer) (l : Lexeme) :
    ((s.step l).2.previous, (s.step l).2.lineStart) =
      remember (s.previous, s.lineStart) (s.step l).1 := by
  unfold step
  repeat' split
  all_goals simp [remember, Piece.token?, Piece.isNewline, skip, emit, accept, remark]

theorem step_star (h : (s.step l).1.token? = some t) (hk : t.kind = .symbol .star) :
    s.atStatement = false := by
  obtain ⟨k, hmakes, rfl, -⟩ := step_token h
  have hstar : l.kind = .symbol .star := by
    cases hmakes <;> cases hk
    assumption
  refine Bool.eq_false_iff.mpr fun hat => ?_
  simp [step, hstar, hat, remark, Piece.token?] at h

theorem remark_comment {mark : CommentMark} {l : Lexeme}
    (h : (s.remark mark l).1 = .comment c standing) :
    standing = s.atStatement ∧ c.mark = mark ∧ ∃ gap, l.text = c.text.toList ++ gap ∧
      c.span = s.spanOf c.text.toList := by
  obtain ⟨gap, hsplit, -, -⟩ := trimReturns_split l.text
  cases h
  exact ⟨rfl, rfl, gap, by rwa [String.toList_ofList], by rw [String.toList_ofList]⟩

/-- A comment says whether it stands where a statement may begin, has the text that stands
there, and is opened by a star only in such a place. -/
theorem step_comment (h : (s.step l).1 = .comment c standing) :
    standing = s.atStatement ∧ (c.mark = .star → s.atStatement = true) ∧
      ∃ after, l.text ++ l.rest = c.text.toList ++ after ∧ c.span = s.spanOf c.text.toList := by
  -- Of the lexeme only the front of the text matters; a comment may run past it.
  have hfront (mark : CommentMark) (l' : Lexeme) (hl : l'.text ++ l'.rest = l.text ++ l.rest)
      (hmark : mark = .star → s.atStatement = true)
      (h : (s.remark mark l').1 = .comment c standing) :
      standing = s.atStatement ∧ (c.mark = .star → s.atStatement = true) ∧
        ∃ after, l.text ++ l.rest = c.text.toList ++ after ∧ c.span = s.spanOf c.text.toList := by
    obtain ⟨hstanding, rfl, gap, htext, hspan⟩ := remark_comment h
    refine ⟨hstanding, hmark, gap ++ l'.rest, ?_, hspan⟩
    rw [← hl, htext, List.append_assoc]
  unfold step at h
  split at h
  case h_6 => exact hfront .bang l rfl nofun h
  case h_7 =>
    split at h
    · cases h
    · split at h
      · exact hfront .rem _ l.toLineEnd_split nofun h
      · cases h
  case h_8 =>
    split at h
    next hstar => exact hfront .star _ l.toLineEnd_split (fun _ => hstar.2) h
    next => cases h
  all_goals cases h

theorem step_trivia {x : Trivia} (h : (s.step l).1 = .trivia x) : x.isComment = false := by
  unfold step at h
  repeat' split at h
  all_goals cases h; try rfl

end Lexer

namespace Lexer
variable {source : List Char} {qs rs : List Piece} {p : Piece} {s : Lexer}

/-- The lexer on its way through the source, with these pieces behind it. -/
structure Reached (s : Lexer) (source : List Char) (qs : List Piece) : Prop where
  place : ∃ before, source = before ++ s.rest ∧ byteSize before = s.offset
  memory : (s.previous, s.lineStart) = qs.foldl remember (none, true)

theorem Reached.step {c : Char} {cs : List Char} (h : s.Reached source qs) (hr : s.rest = c :: cs) :
    (s.step (Lexeme.scan c cs)).2.Reached source (qs ++ [(s.step (Lexeme.scan c cs)).1]) where
  place := by
    obtain ⟨before, hs, hb⟩ := h.place
    obtain ⟨text, gap, hsplit, -, -, ho⟩ := s.step_lays c cs
    refine ⟨before ++ (text ++ gap), ?_, ?_⟩
    · rw [hs, hr, hsplit]
      simp
    · rw [ho, byteSize_append, byteSize_append, hb]
      omega
  memory := by
    rw [List.foldl_append, ← h.memory]
    exact step_remember s _

/-- Every piece of a source is what the lexer made of the next lexeme at its place. -/
theorem exists_reached (h : (start source).pieces = qs ++ p :: rs) :
    ∃ (s : Lexer) (c : Char) (cs : List Char), s.Reached source qs ∧ s.rest = c :: cs ∧
      (s.step (Lexeme.scan c cs)).1 = p := by
  suffices hgo : ∀ (xs : List Piece) (s : Lexer), s.Reached source xs → s.pieces = qs ++ p :: rs →
      ∃ (s' : Lexer) (c : Char) (cs : List Char), s'.Reached source (xs ++ qs) ∧
        s'.rest = c :: cs ∧ (s'.step (Lexeme.scan c cs)).1 = p from
    hgo [] _ ⟨⟨[], rfl, rfl⟩, rfl⟩ h
  intro xs s hs hpieces
  clear h
  induction qs generalizing xs s with
  | nil =>
    cases hr : s.rest with
    | nil =>
      rw [pieces_nil hr] at hpieces
      cases hpieces
    | cons c cs =>
      rw [pieces_cons hr] at hpieces
      exact ⟨s, c, cs, by rwa [List.append_nil], hr, (List.cons.inj hpieces).1⟩
  | cons q qs ih =>
    cases hr : s.rest with
    | nil =>
      rw [pieces_nil hr] at hpieces
      cases hpieces
    | cons c cs =>
      rw [pieces_cons hr] at hpieces
      obtain ⟨rfl, htail⟩ := List.cons.inj hpieces
      obtain ⟨s', d, ds, hs', hr', hp⟩ := ih _ _ (hs.step hr) htail
      exact ⟨s', d, ds, by rwa [List.append_cons], hr', hp⟩

/-- The token remembered is the last one. -/
theorem remember_token (qs : List Piece) :
    (qs.foldl remember (none, true)).1 = (qs.filterMap Piece.token?).getLast? := by
  induction qs using List.reverseRecOn with
  | nil => rfl
  | append_singleton qs p ih =>
    rw [List.foldl_append, List.filterMap_append, List.getLast?_append, ← ih]
    cases hp : p.token? <;> simp [remember, hp]

/-- Behind the token read last no line has ended. -/
theorem not_newline_behind {t : Token} (ht : p.token? = some t) (hp : p.span.start < p.span.stop)
    (hne : ∀ q ∈ qs, q.span.start < q.span.stop) (hlast : ∀ q ∈ qs, q.span.stop ≤ p.span.start) :
    ¬∃ n ∈ qs ++ [p], n.isNewline = true ∧ t.span.stop ≤ n.span.start := by
  rintro ⟨n, hn, hnew, hle⟩
  have hspan : p.span = t.span := Piece.span_of_token? ht
  obtain hn | hn := List.mem_append.mp hn
  · have hstop := hlast n hn
    have hstart := hne n hn
    rw [hspan] at hstop hp
    omega
  · rw [List.mem_singleton.mp hn] at hnew
    cases p <;> cases ht <;> cases hnew

/-- A line is remembered to have ended if no token has been read, or a line feed lies behind
the last one. -/
theorem remember_lineStart (hne : ∀ p ∈ qs, p.span.start < p.span.stop)
    (ho : qs.Pairwise fun p q => p.span.stop ≤ q.span.start) :
    (qs.foldl remember (none, true)).2 = true ↔ ∀ u ∈ (qs.filterMap Piece.token?).getLast?,
      ∃ n ∈ qs, n.isNewline = true ∧ u.span.stop ≤ n.span.start := by
  induction qs using List.reverseRecOn with
  | nil => simp
  | append_singleton qs p ih =>
    obtain ⟨ho, -, hlast⟩ := List.pairwise_append.mp ho
    obtain ⟨hne, hp⟩ := List.forall_mem_append.mp hne
    have hp := hp p (List.mem_singleton_self p)
    have hlast (q : Piece) (hq : q ∈ qs) := hlast q hq p (List.mem_singleton_self p)
    rw [List.foldl_append, List.filterMap_append, List.getLast?_append]
    cases ht : p.token? with
    | some t =>
      have hnone := not_newline_behind ht hp hne hlast
      simpa [remember, ht] using hnone
    | none =>
      simp only [List.foldl_cons, List.foldl_nil, remember, ht, Bool.or_eq_true, ih hne ho,
        List.filterMap_cons_none ht, List.filterMap_nil, List.getLast?_nil, Option.none_or,
        List.mem_append, List.mem_singleton]
      constructor
      · rintro (hall | hnew) u hu
        · obtain ⟨n, hn, h⟩ := hall u hu
          exact ⟨n, .inl hn, h⟩
        · obtain ⟨q, hq, hqu⟩ := List.mem_filterMap.mp (List.mem_of_getLast? hu)
          have hstop := hlast q hq
          rw [Piece.span_of_token? hqu] at hstop
          exact ⟨p, .inr rfl, hnew, hstop⟩
      · intro hall
        refine or_iff_not_imp_right.mpr fun hnew u hu => ?_
        obtain ⟨n, hn | rfl, hn', h⟩ := hall u hu
        · exact ⟨n, hn, hn', h⟩
        · exact absurd hn' hnew

end Lexer

namespace Lexer
variable {source : List Char} {qs rs : List Piece} {p : Piece}

/-- The pieces in front of a piece end before it, and it and those behind it do not. -/
theorem pieces_around (h : (start source).pieces = qs ++ p :: rs) :
    (∀ q ∈ qs, q.span.stop ≤ p.span.start) ∧ ∀ q ∈ p :: rs, p.span.start < q.span.stop := by
  have hlaid := (start source).pieces_laid
  have hapart := hlaid.apart
  rw [h] at hapart
  obtain ⟨-, hright, hacross⟩ := List.pairwise_append.mp hapart
  refine ⟨fun q hq => (hacross q hq p (List.mem_cons_self ..)).2, fun q hq => ?_⟩
  have hstop := hlaid.start_lt_stop (p := q) (by simp [h, List.mem_cons.mp hq])
  obtain rfl | hq := List.mem_cons.mp hq
  · exact hstop
  · have hle := (List.pairwise_cons.mp hright).1 q hq
    omega

/-- The last token before a piece is found by its range. -/
theorem lastBefore?_pieces (h : (start source).pieces = qs ++ p :: rs) :
    (Lexing.ofPieces (start source).pieces).lastBefore? p.span.start =
      (qs.filterMap Piece.token?).getLast? := by
  obtain ⟨hleft, hright⟩ := pieces_around h
  have hl : (qs.filterMap Piece.token?).filter (fun t => t.span.stop ≤ p.span.start) =
      qs.filterMap Piece.token? := by
    refine List.filter_eq_self.mpr fun t ht => ?_
    obtain ⟨q, hq, hqt⟩ := List.mem_filterMap.mp ht
    simpa [Piece.span_of_token? hqt] using hleft q hq
  have hr : ((p :: rs).filterMap Piece.token?).filter (fun t => t.span.stop ≤ p.span.start) = [] := by
    refine List.filter_eq_nil_iff.mpr fun t ht => ?_
    obtain ⟨q, hq, hqt⟩ := List.mem_filterMap.mp ht
    simpa [Piece.span_of_token? hqt] using hright q hq
  rw [Lexing.lastBefore?, Lexing.ofPieces, h, List.filterMap_append, List.filter_append, hl, hr,
    List.append_nil]

/-- The line feeds between an offset and a piece are among the pieces in front of it. -/
theorem breaksBetween_pieces (h : (start source).pieces = qs ++ p :: rs) (i : Nat) :
    (Lexing.ofPieces (start source).pieces).breaksBetween i p.span.start = true ↔
      ∃ n ∈ qs, n.isNewline = true ∧ i ≤ n.span.start := by
  obtain ⟨hleft, hright⟩ := pieces_around h
  simp only [Lexing.breaksBetween, Lexing.ofPieces, List.any_eq_true, Bool.and_eq_true,
    beq_iff_eq, decide_eq_true_eq]
  constructor
  · rintro ⟨x, hx, ⟨hk, hi⟩, hstop⟩
    obtain ⟨n, hn, hnx⟩ := List.mem_filterMap.mp hx
    have hspan := (Piece.span_of_trivia? hnx).1
    have hnew : n.isNewline = true := by
      cases n <;> cases hnx
      · exact beq_iff_eq.mpr hk
      · cases hk
    rw [h] at hn
    obtain hn | hn := List.mem_append.mp hn
    · exact ⟨n, hn, hnew, hspan ▸ hi⟩
    · have hlt := hright n hn
      rw [hspan] at hlt
      omega
  · rintro ⟨n, hn, hnew, hi⟩
    obtain ⟨x, rfl, hk⟩ : ∃ x, n = .trivia x ∧ x.kind = .newline := by
      cases n with
      | trivia x => exact ⟨x, rfl, beq_iff_eq.mp hnew⟩
      | _ => cases hnew
    have hx : x ∈ (start source).pieces.filterMap Piece.trivia? :=
      List.mem_filterMap.mpr ⟨.trivia x, by simp [h, hn], rfl⟩
    exact ⟨x, hx, ⟨hk, hi⟩, hleft _ hn⟩

/-- What the lexer remembers in front of a piece is what the ranges around the piece say. -/
theorem Reached.memory_eq {s : Lexer} (hs : s.Reached source qs)
    (h : (start source).pieces = qs ++ p :: rs) :
    s.previous = (qs.filterMap Piece.token?).getLast? ∧ (s.lineStart = true ↔
      ∀ u ∈ (qs.filterMap Piece.token?).getLast?,
        (Lexing.ofPieces (start source).pieces).breaksBetween u.span.stop p.span.start = true) := by
  have hlaid := (start source).pieces_laid
  have hapart := hlaid.apart
  rw [h] at hapart
  have ho := (List.pairwise_append.mp hapart).1.imp fun h => h.2
  have hne (q : Piece) (hq : q ∈ qs) : q.span.start < q.span.stop :=
    hlaid.start_lt_stop (by simp [h, hq])
  have hprevious : s.previous = (qs.foldl remember (none, true)).1 := congrArg Prod.fst hs.memory
  have hline : s.lineStart = (qs.foldl remember (none, true)).2 := congrArg Prod.snd hs.memory
  refine ⟨hprevious.trans (remember_token qs), ?_⟩
  simp only [hline, remember_lineStart hne ho, breaksBetween_pieces h]

theorem Reached.atStatement_eq {s : Lexer} (hs : s.Reached source qs)
    (h : (start source).pieces = qs ++ p :: rs) : s.atStatement =
      (Lexing.ofPieces (start source).pieces).mayBeginStatement p.span.start := by
  obtain ⟨hprevious, hline⟩ := hs.memory_eq h
  rw [← hprevious] at hline
  rw [atStatement, Lexing.mayBeginStatement, lastBefore?_pieces h, ← hprevious]
  cases hu : s.previous with
  | none => rfl
  | some u =>
    have hbreak : s.lineStart =
        (Lexing.ofPieces (start source).pieces).breaksBetween u.span.stop p.span.start :=
      Bool.eq_iff_iff.mpr (by simpa [hu] using hline)
    dsimp only
    rw [u.kind.opensStatementList_eq, hbreak]

/-- A comment stands by itself where a statement may begin, and has the text of its range. -/
theorem comment_pieces {c : Comment} {standing : Bool}
    (h : (start source).pieces = qs ++ .comment c standing :: rs) :
    standing = (Lexing.ofPieces (start source).pieces).mayBeginStatement c.span.start ∧
      (c.mark = .star → standing = true) ∧ c.span.Holds source c.text.toList := by
  obtain ⟨s, d, ds, hs, hr, hp⟩ := exists_reached h
  obtain ⟨hstanding, hstar, after, hsplit, hspan⟩ := step_comment hp
  refine ⟨hstanding.trans (hs.atStatement_eq h), fun hm => hstanding.trans (hstar hm), ?_⟩
  obtain ⟨before, hsource, hsize⟩ := hs.place
  refine ⟨before, after, ?_, by rw [hsize, hspan]; rfl, by rw [hspan]; rfl⟩
  rw [hsource, hr, ← Lexeme.scan_split, hsplit]

/-- No other piece than a comment is a comment among the trivia. -/
theorem trivia_pieces {x : Trivia} (h : .trivia x ∈ (start source).pieces) : x.isComment = false := by
  obtain ⟨qs, rs, hsplit⟩ := List.append_of_mem h
  obtain ⟨s, d, ds, -, -, hx⟩ := exists_reached hsplit
  exact step_trivia hx

/-- The comments that stand by themselves are those where a statement may begin. -/
theorem comments_pieces (source : List Char) :
    (Lexing.ofPieces (start source).pieces).comments.map
        (fun c => (⟨.comment c.mark, c.span⟩ : Trivia)) =
      (Lexing.ofPieces (start source).pieces).trivia.filter fun x => x.isComment &&
        (Lexing.ofPieces (start source).pieces).mayBeginStatement x.span.start := by
  change List.map _ ((start source).pieces.filterMap Piece.comment?) =
    List.filter _ ((start source).pieces.filterMap Piece.trivia?)
  rw [List.map_filterMap, List.filter_filterMap]
  refine List.filterMap_congr fun p hp => ?_
  cases p with
  | comment c standing =>
    obtain ⟨qs, rs, hsplit⟩ := List.append_of_mem hp
    obtain ⟨hstanding, -⟩ := comment_pieces hsplit
    simp only [Piece.trivia?, Option.filter_some, Trivia.isComment, Bool.true_and, ← hstanding]
    cases standing <;> rfl
  | trivia x => simp [Piece.comment?, Piece.trivia?, Option.filter_some, trivia_pieces hp]
  | _ => rfl

/-- A token of a source, and the lexer in front of it. -/
theorem token_pieces {us vs : List Token} {t : Token}
    (h : (Lexing.ofPieces (start source).pieces).tokens = us ++ t :: vs) :
    ∃ (qs : List Piece) (p : Piece) (rs : List Piece) (s : Lexer) (l : Lexeme) (k : TokenKind),
      (start source).pieces = qs ++ p :: rs ∧ qs.filterMap Piece.token? = us ∧
        p.span = t.span ∧ s.Reached source qs ∧ (s.step l).1.token? = some t ∧
        t = s.tokenOf k l := by
  obtain ⟨qs, xs, hpieces, hqs, hxs⟩ := List.filterMap_eq_append_iff.mp h
  obtain ⟨ys, p, rs, rfl, hys, hp, -⟩ := List.filterMap_eq_cons_iff.mp hxs
  rw [← List.append_assoc] at hpieces
  obtain ⟨s, c, cs, hs, -, rfl⟩ := exists_reached hpieces
  obtain ⟨k, -, hk, -⟩ := step_token hp
  refine ⟨_, _, rs, s, _, k, hpieces, ?_, Piece.span_of_token? hp, hs, hp, hk⟩
  rw [List.filterMap_append, hqs, List.filterMap_eq_nil_iff.mpr hys, List.append_nil]

end Lexer

namespace Lexing
variable {source : String} {us vs : List Token} {t : Token}

theorem lineStart_iff (h : (lex source).tokens = us ++ t :: vs) : t.lineStart = true ↔
    ∀ u ∈ us.getLast?, (lex source).breaksBetween u.span.stop t.span.start = true := by
  obtain ⟨qs, p, rs, s, l, k, hsplit, rfl, hspan, hs, -, rfl⟩ := Lexer.token_pieces h
  rw [← hspan]
  exact (hs.memory_eq hsplit).2

theorem spaced_iff (h : (lex source).tokens = us ++ t :: vs) : t.spaced = true ↔
    t.span.start ≠ (us.getLast?.map fun u => u.span.stop).getD 0 := by
  obtain ⟨qs, p, rs, s, l, k, hsplit, rfl, -, hs, -, rfl⟩ := Lexer.token_pieces h
  rw [← (hs.memory_eq hsplit).1]
  cases hprevious : s.previous with
  | none => simp [Lexer.tokenOf, Lexer.spanOf, hprevious, Nat.pos_iff_ne_zero]
  | some u => simp [Lexer.tokenOf, Lexer.spanOf, hprevious, ne_comm]

theorem star_within (h : (lex source).tokens = us ++ t :: vs) (hk : t.kind = .symbol .star) :
    t.lineStart = false ∧ ∃ u ∈ us.getLast?, u.kind ∉ statementOpeners := by
  obtain ⟨qs, p, rs, s, l, k, hsplit, rfl, -, hs, ht, rfl⟩ := Lexer.token_pieces h
  have hat := Lexer.step_star ht hk
  rw [← (hs.memory_eq hsplit).1]
  unfold Lexer.atStatement at hat
  cases hprevious : s.previous with
  | none => simp [hprevious] at hat
  | some u =>
    simp only [hprevious, Bool.or_eq_false_iff, u.kind.opensStatementList_eq,
      decide_eq_false_iff_not] at hat
    exact ⟨hat.2, u, rfl, hat.1⟩

theorem comment_holds {c : Comment} (hc : c ∈ (lex source).comments) :
    c.span.Holds source.toList c.text.toList := by
  obtain ⟨p, hp, hpc⟩ := List.mem_filterMap.mp hc
  obtain ⟨qs, rs, hsplit⟩ := List.append_of_mem hp
  cases p with
  | comment d standing =>
    cases standing <;> cases hpc
    exact (Lexer.comment_pieces hsplit).2.2
  | _ => cases hpc

theorem star_mayBeginStatement {x : Trivia} (hx : x ∈ (lex source).trivia)
    (hk : x.kind = .comment .star) : (lex source).mayBeginStatement x.span.start = true := by
  obtain ⟨p, hp, hpx⟩ := List.mem_filterMap.mp hx
  obtain ⟨qs, rs, hsplit⟩ := List.append_of_mem hp
  cases p with
  | comment c standing =>
    cases hpx
    obtain ⟨hstanding, hstar, -⟩ := Lexer.comment_pieces hsplit
    exact hstanding.symm.trans (hstar (TriviaKind.comment.inj hk))
  | trivia y =>
    cases hpx
    have hno := Lexer.trivia_pieces hp
    rw [Trivia.isComment, hk] at hno
    cases hno
  | _ => cases hpx

end Lexing

/-- The layout flags of all tokens, the stars among them and the comments of a source are what
the ranges of tokens and line feeds say. -/
theorem lex_flags_exact (source : String) : (lex source).Flagged source.toList where
  lineStart _ _ _ := Lexing.lineStart_iff
  spaced _ _ _ := Lexing.spaced_iff
  star _ _ _ := Lexing.star_within
  comments := Lexer.comments_pieces source.toList
  texts _ := Lexing.comment_holds
  stars _ := Lexing.star_mayBeginStatement

end PickSyntax
