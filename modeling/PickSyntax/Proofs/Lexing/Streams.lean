import PickSyntax.Proofs.Lexing.Coverage

/-!
# The tokens and the comments of a source

Two lists are left of a source for the grammar: its tokens, and the comments that stand where a
statement may begin. Both are in the order of the source, and no comment overlaps a token. A
comment reaches to the end of its line, so the first token behind it begins one.
-/
namespace PickSyntax

namespace Lexer
variable {s : Lexer} {t : Token} {c : Char} {cs : List Char}

/-- The tokens from here on. -/
def tokens (s : Lexer) : List Token := s.pieces.filterMap Piece.token?

theorem tokens_nil (h : s.rest = []) : s.tokens = [] := by
  rw [tokens, pieces_nil h]
  rfl

/-- Where the next lexeme becomes a token, that token comes first. -/
theorem tokens_token (h : s.rest = c :: cs)
    (ht : (s.step (Lexeme.scan c cs)).1.token? = some t) :
    s.tokens = t :: (s.step (Lexeme.scan c cs)).2.tokens := by
  rw [tokens, pieces_cons h, List.filterMap_cons_some ht]
  rfl

/-- Otherwise the tokens are those behind it. -/
theorem tokens_other (h : s.rest = c :: cs)
    (ht : (s.step (Lexeme.scan c cs)).1.token? = none) :
    s.tokens = (s.step (Lexeme.scan c cs)).2.tokens := by
  rw [tokens, pieces_cons h, List.filterMap_cons_none ht]
  rfl

theorem step_offset_lt (s : Lexer) (c : Char) (cs : List Char) :
    s.offset < (s.step (Lexeme.scan c cs)).2.offset := by
  obtain ⟨text, gap, -, hf, -, ho⟩ := s.step_lays c cs
  have hpos := byteSize_pos hf.nonempty
  omega

/-- A step that yields no token keeps the last one, and a line start. -/
theorem step_other {s : Lexer} {l : Lexeme} (h : (s.step l).1.token? = none) :
    (s.lineStart = true → (s.step l).2.lineStart = true) ∧ (s.step l).2.previous = s.previous := by
  unfold step at h ⊢
  cases hk : l.kind <;> simp only [hk] at h ⊢
  case word =>
    cases hw : Keyword.ofWord? l.text with
    | none => simp [hw, emit, Piece.token?] at h
    | some k =>
      simp only [hw] at h ⊢
      by_cases hrem : k = .REM ∧ opensRemark l.rest = true
      · rw [if_pos hrem]
        exact ⟨id, rfl⟩
      · rw [if_neg hrem] at h
        cases h
  case symbol y =>
    by_cases hstar : y = .star ∧ s.atStatement = true
    · rw [if_pos hstar]
      exact ⟨id, rfl⟩
    · rw [if_neg hstar] at h
      cases h
  case newline => exact ⟨fun _ => trivial, rfl⟩
  case systemName => cases h
  case number => cases h
  case string q => cases h
  case openString q => cases h
  all_goals exact ⟨id, rfl⟩

/-- The first token behind a line feed begins a line. -/
theorem head_lineStart (hl : s.lineStart = true) : ∀ t ∈ s.tokens.head?, t.lineStart = true := by
  induction s using pieces_induction with
  | nil s hr => simp [tokens_nil hr]
  | cons s c cs hr ih =>
    cases ht : (s.step (Lexeme.scan c cs)).1.token? with
    | none =>
      rw [tokens_other hr ht]
      exact ih ((step_other ht).1 hl)
    | some t =>
      rw [tokens_token hr ht]
      rintro _ ⟨⟩
      obtain ⟨k, -, rfl, -⟩ := step_token ht
      exact hl

/-- Behind a line feed a line begins. -/
theorem head_lineFeed (hr : s.rest = '\n' :: cs) : ∀ t ∈ s.tokens.head?, t.lineStart = true := by
  rw [tokens_other hr rfl]
  exact head_lineStart rfl

/-- A token that stands apart from the last one is spaced. -/
theorem head_spaced (hpos : 0 < s.offset) (hs : ∀ u, s.previous = some u → u.span.stop < s.offset) :
    ∀ t ∈ s.tokens.head?, t.spaced = true := by
  induction s using pieces_induction with
  | nil s hr => simp [tokens_nil hr]
  | cons s c cs hr ih =>
    cases ht : (s.step (Lexeme.scan c cs)).1.token? with
    | none =>
      rw [tokens_other hr ht]
      have hle := s.step_offset_le (Lexeme.scan c cs)
      refine ih (Nat.lt_of_lt_of_le hpos hle) fun u hu => ?_
      exact Nat.lt_of_lt_of_le (hs u ((step_other ht).2 ▸ hu)) hle
    | some t =>
      rw [tokens_token hr ht]
      rintro _ ⟨⟩
      obtain ⟨k, -, rfl, -⟩ := step_token ht
      cases hp : s.previous with
      | none => simpa [tokenOf, hp] using hpos
      | some u =>
        have hlt := hs u hp
        simp only [tokenOf, hp, bne_iff_ne]
        omega

/-- Behind a comment a line begins. -/
theorem head_comment {d : Comment} (hd : (s.step (Lexeme.scan c cs)).1.comment? = some d) :
    ∀ t ∈ (s.step (Lexeme.scan c cs)).2.tokens.head?, t.lineStart = true := by
  obtain ⟨text, gap, -, -, htrails, -⟩ := s.step_lays c cs
  have hcomment : (s.step (Lexeme.scan c cs)).1.isComment = true := by
    cases hp : (s.step (Lexeme.scan c cs)).1 <;> simp_all [Piece.comment?, Piece.isComment]
  have hend := (htrails.lineEnd hcomment).2
  cases hr : (s.step (Lexeme.scan c cs)).2.rest with
  | nil => simp [tokens_nil hr]
  | cons e es =>
    obtain rfl := hend e (by rw [hr]; rfl)
    exact head_lineFeed hr

/-- The lexer is past its last token, and apart from it if a line has ended since. -/
def PastLast (s : Lexer) : Prop :=
  ∀ u, s.previous = some u → u.span.stop ≤ s.offset ∧ (s.lineStart = true → u.span.stop < s.offset)

theorem PastLast.of_none (h : s.previous = none) : s.PastLast := by
  intro u hu
  rw [h] at hu
  cases hu

theorem PastLast.step (h : s.PastLast) (c : Char) (cs : List Char) :
    (s.step (Lexeme.scan c cs)).2.PastLast := by
  intro u hu
  cases ht : (s.step (Lexeme.scan c cs)).1.token? with
  | none =>
    have hle := (h u ((step_other ht).2 ▸ hu)).1
    have hlt := s.step_offset_lt c cs
    exact ⟨by omega, fun _ => by omega⟩
  | some t =>
    obtain ⟨k, -, rfl, hnext⟩ := step_token ht
    rw [hnext] at hu ⊢
    cases hu
    exact ⟨Nat.le_refl _, nofun⟩

/-- Where a token has been read, one that begins a line is spaced. -/
theorem PastLast.spaced (h : s.PastLast) (hp : s.previous ≠ none) :
    ∀ t ∈ s.tokens, t.lineStart = true → t.spaced = true := by
  induction s using pieces_induction with
  | nil s hr => simp [tokens_nil hr]
  | cons s c cs hr ih =>
    cases ht : (s.step (Lexeme.scan c cs)).1.token? with
    | none =>
      rw [tokens_other hr ht]
      exact ih (h.step c cs) (by rwa [(step_other ht).2])
    | some t =>
      rw [tokens_token hr ht]
      obtain ⟨k, -, htoken, hnext⟩ := step_token ht
      refine List.forall_mem_cons.mpr ⟨fun hl => ?_, ih (h.step c cs) (by rw [hnext]; exact nofun)⟩
      obtain ⟨u, hu⟩ := Option.ne_none_iff_exists'.mp hp
      subst htoken
      have hlt := (h u hu).2 hl
      simp only [tokenOf, hu, bne_iff_ne]
      omega

theorem tail_spaced (hp : s.previous = none) :
    ∀ t ∈ s.tokens.tail, t.lineStart = true → t.spaced = true := by
  induction s using pieces_induction with
  | nil s hr => simp [tokens_nil hr]
  | cons s c cs hr ih =>
    cases ht : (s.step (Lexeme.scan c cs)).1.token? with
    | none =>
      rw [tokens_other hr ht]
      exact ih ((step_other ht).2.trans hp)
    | some t =>
      rw [tokens_token hr ht]
      obtain ⟨k, -, -, hnext⟩ := step_token ht
      exact ((PastLast.of_none hp).step c cs).spaced (by rw [hnext]; exact nofun)

/-- The comments from here on. -/
def comments (s : Lexer) : List Comment := s.pieces.filterMap Piece.comment?

/-- Where the next lexeme becomes a comment that stands by itself, that comment comes first. -/
theorem comments_comment {d : Comment} (h : s.rest = c :: cs)
    (hd : (s.step (Lexeme.scan c cs)).1.comment? = some d) :
    s.comments = d :: (s.step (Lexeme.scan c cs)).2.comments := by
  rw [comments, pieces_cons h, List.filterMap_cons_some hd]
  rfl

theorem comments_other (h : s.rest = c :: cs)
    (hd : (s.step (Lexeme.scan c cs)).1.comment? = none) :
    s.comments = (s.step (Lexeme.scan c cs)).2.comments := by
  rw [comments, pieces_cons h, List.filterMap_cons_none hd]
  rfl

/-- All other pieces stand behind the next one. -/
theorem step_before {p q : Piece} (h : s.rest = c :: cs)
    (hp : (s.step (Lexeme.scan c cs)).1 = p) (hq : q ∈ (s.step (Lexeme.scan c cs)).2.pieces) :
    p.span.start < p.span.stop ∧ p.span.stop ≤ q.span.start := by
  have hapart := s.pieces_laid.apart
  rw [pieces_cons h, List.pairwise_cons, hp] at hapart
  exact hapart.1 q hq

end Lexer

/-- In an ordered list the token that begins before all others comes first. -/
theorem Ordered.head?_of_least {offset : Nat} {ts : List Token} {t : Token} (h : Ordered offset ts)
    (ht : t ∈ ts) (hleast : ∀ u ∈ ts, t.span.start ≤ u.span.start) : ts.head? = some t := by
  cases ts with
  | nil => cases ht
  | cons u us =>
    obtain rfl | ht := List.mem_cons.mp ht
    · rfl
    · have hle := hleast u (List.mem_cons_self ..)
      have hlt := (h.bound u (List.mem_cons_self ..)).2
      have hstop := List.rel_of_pairwise_cons h.apart ht
      omega

/-- The tokens and the comments of a source, or of the end of one. -/
structure Streams (tokens : List Token) (comments : List Comment) : Prop where
  spelled : ∀ t ∈ tokens, t.WellSpelled
  ordered : Ordered 0 tokens
  sorted : comments.Pairwise fun c d => c.span.stop ≤ d.span.start
  nonempty : ∀ c ∈ comments, c.span.start < c.span.stop
  apart : ∀ c ∈ comments, ∀ t ∈ tokens, c.span.stop ≤ t.span.start ∨ t.span.stop ≤ c.span.start
  /-- The first token behind a comment begins a line. -/
  broken : ∀ c ∈ comments, ∀ t ∈ tokens, c.span.stop ≤ t.span.start →
    (∀ u ∈ tokens, u.span.stop ≤ c.span.start ∨ t.span.start ≤ u.span.start) → t.lineStart = true
  spaced : ∀ t ∈ tokens.tail, t.lineStart = true → t.spaced = true

theorem Piece.span_of_comment? {p : Piece} {c : Comment} (h : p.comment? = some c) :
    p.span = c.span := by
  cases p with
  | comment d standing => cases standing <;> cases h; rfl
  | _ => cases h

/-- A token and a comment of a source do not overlap. -/
theorem Laid.comment_apart {offset : Nat} {text : List Char} {ps : List Piece} {c : Comment}
    {t : Token} (h : Laid offset text ps) (hc : c ∈ ps.filterMap Piece.comment?)
    (ht : t ∈ ps.filterMap Piece.token?) :
    c.span.stop ≤ t.span.start ∨ t.span.stop ≤ c.span.start := by
  obtain ⟨p, hp, hpc⟩ := List.mem_filterMap.mp hc
  obtain ⟨q, hq, hqt⟩ := List.mem_filterMap.mp ht
  have hpairs := List.Pairwise.forall_of_forall_of_flip
    (R := fun p q : Piece => p.span.stop ≤ q.span.start ∨ q.span.stop ≤ p.span.start ∨ p = q)
    (fun _ _ => .inr (.inr rfl)) (h.apart.imp fun h => .inl h.2)
    (h.apart.imp fun h => .inr (.inl h.2)) hp hq
  rw [Piece.span_of_comment? hpc, Piece.span_of_token? hqt] at hpairs
  obtain h | h | rfl := hpairs
  · exact .inl h
  · exact .inr h
  · cases p <;> simp_all [Piece.comment?, Piece.token?]

/-- No piece is empty. -/
theorem Laid.start_lt_stop {offset : Nat} {text : List Char} {ps : List Piece} {p : Piece}
    (h : Laid offset text ps) (hp : p ∈ ps) : p.span.start < p.span.stop := by
  induction h with
  | nil => cases hp
  | cons hf _ _ ih =>
    obtain rfl | hp := List.mem_cons.mp hp
    · have hpos := byteSize_pos hf.nonempty
      rw [hf.span]
      dsimp only
      omega
    · exact ih hp

theorem Lexer.comment_nonempty {s : Lexer} {c : Comment} (hc : c ∈ s.comments) :
    c.span.start < c.span.stop := by
  obtain ⟨p, hp, hpc⟩ := List.mem_filterMap.mp hc
  exact Piece.span_of_comment? hpc ▸ s.pieces_laid.start_lt_stop hp

theorem Lexer.tokens_broken (s : Lexer) : ∀ c ∈ s.comments, ∀ t ∈ s.tokens,
    c.span.stop ≤ t.span.start →
    (∀ u ∈ s.tokens, u.span.stop ≤ c.span.start ∨ t.span.start ≤ u.span.start) →
    t.lineStart = true := by
  induction s using pieces_induction with
  | nil s hr => simp [tokens_nil hr]
  | cons s e es hr ih =>
    intro c hc t ht hle hfirst
    have hnonempty := comment_nonempty hc
    cases hcomment : (s.step (Lexeme.scan e es)).1.comment? with
    | none =>
      rw [comments_other hr hcomment] at hc
      cases htoken : (s.step (Lexeme.scan e es)).1.token? with
      | none =>
        rw [tokens_other hr htoken] at ht hfirst
        exact ih c hc t ht hle hfirst
      | some u =>
        rw [tokens_token hr htoken] at ht hfirst
        obtain rfl | ht := List.mem_cons.mp ht
        · -- The comment stands behind this token.
          obtain ⟨q, hq, hqc⟩ := List.mem_filterMap.mp hc
          have hbehind := step_before hr rfl hq
          rw [Piece.span_of_comment? hqc, Piece.span_of_token? htoken] at hbehind
          omega
        · exact ih c hc t ht hle fun u hu => hfirst u (List.mem_cons_of_mem _ hu)
    | some d =>
      have htoken : (s.step (Lexeme.scan e es)).1.token? = none := by
        cases hp : (s.step (Lexeme.scan e es)).1 <;> simp_all [Piece.comment?, Piece.token?]
      rw [comments_comment hr hcomment] at hc
      rw [tokens_other hr htoken] at ht hfirst
      obtain rfl | hc := List.mem_cons.mp hc
      · -- All tokens stand behind this comment, so the first of them is meant.
        have hordered := (s.step (Lexeme.scan e es)).2.pieces_tokens.1
        refine head_comment hcomment t (hordered.head?_of_least ht fun u hu => ?_)
        obtain ⟨q, hq, hqt⟩ := List.mem_filterMap.mp hu
        have hbehind := step_before hr rfl hq
        rw [Piece.span_of_comment? hcomment, Piece.span_of_token? hqt] at hbehind
        have hpos := hordered.bound u hu
        have := hfirst u hu
        omega
      · exact ih c hc t ht hle hfirst

theorem lex_streams (source : String) : Streams (lex source).tokens (lex source).comments := by
  have hlaid := Lexer.pieces_laid (Lexer.start source.toList)
  exact {
    spelled := lex_wellSpelled source
    ordered := lex_ordered source
    sorted := hlaid.pairwise_view fun _ _ => Piece.span_of_comment?
    nonempty := fun _ => Lexer.comment_nonempty
    apart := fun c hc t ht => hlaid.comment_apart hc ht
    broken := Lexer.tokens_broken _
    spaced := Lexer.tail_spaced (s := Lexer.start source.toList) rfl }

end PickSyntax
