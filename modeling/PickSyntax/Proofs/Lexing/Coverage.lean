import PickSyntax.Proofs.Lexing.Tokens

/-!
# Every byte is accounted for

The pieces of a source stand one behind the other, and each begins where the one before it
has ended. There is one gap that a piece can leave: the carriage returns that end the line of
a comment belong to nothing. `Laid` says this of the whole list of pieces, and follows from
what one step of the lexer does (`step_lays`).

Tokens, trivia and faults are views of that list, so what is to be said about their ranges is
said about the ranges of the pieces first. The main statement collects it for a source.
-/
namespace PickSyntax

/-- The text stands in the source at the bytes of the range. -/
def Span.Holds (x : Span) (source text : List Char) : Prop :=
  ∃ before after, source = before ++ (text ++ after) ∧ byteSize before = x.start ∧
    x.stop = x.start + byteSize text

/-- An offset between two characters, or at either end of the source. -/
def IsBoundary (source : List Char) (offset : Nat) : Prop :=
  ∃ before after, source = before ++ after ∧ byteSize before = offset

/-- The byte at an offset lies in the range. -/
def Span.contains (offset : Nat) (x : Span) : Bool := x.start ≤ offset && offset < x.stop

/-- The byte belongs to the longest run of carriage returns that leads from the end of the
range to the end of its line. -/
def Span.TrailedBy (x : Span) (source : List Char) (offset : Nat) : Prop :=
  ∃ before run after, source = before ++ (run ++ after) ∧ byteSize before = x.stop ∧
    before.getLast? ≠ some '\r' ∧ (∀ c ∈ run, c = '\r') ∧ (∀ c, after.head? = some c → c = '\n') ∧
    x.stop ≤ offset ∧ offset < x.stop + byteSize run

theorem Span.Holds.boundaries {x : Span} {source text : List Char} (h : x.Holds source text) :
    IsBoundary source x.start ∧ IsBoundary source x.stop := by
  obtain ⟨before, after, hs, hb, hstop⟩ := h
  exact ⟨⟨before, _, hs, hb⟩, ⟨before ++ text, after, by simp [hs], by simp [hb, hstop]⟩⟩

/-- A prefix of a text is known by its size, since no character is empty. -/
theorem eq_of_byteSize_eq {a b c d : List Char} (h : a ++ b = c ++ d)
    (hs : byteSize a = byteSize c) : a = c ∧ b = d := by
  induction a generalizing c with
  | nil =>
    cases c with
    | nil => exact ⟨rfl, h⟩
    | cons x xs =>
      have := x.utf8Size_pos
      simp at hs
      omega
  | cons x xs ih =>
    cases c with
    | nil =>
      have := x.utf8Size_pos
      simp at hs
      omega
    | cons y ys =>
      obtain ⟨rfl, htail⟩ : x = y ∧ xs ++ b = ys ++ d := by simpa using h
      obtain ⟨rfl, hbd⟩ := ih htail (by simpa using hs)
      exact ⟨rfl, hbd⟩

/-- A run of one character cannot reach past a longer run of it. -/
theorem byteSize_run_le {c : Char} {run after gap rest : List Char}
    (h : run ++ after = gap ++ rest) (hrun : ∀ x ∈ run, x = c)
    (hrest : rest.head? ≠ some c) : byteSize run ≤ byteSize gap := by
  induction gap generalizing run with
  | nil =>
    cases run with
    | nil => simp
    | cons x xs =>
      have hx := hrun x (by simp)
      rw [List.nil_append] at h
      rw [← h, hx] at hrest
      simp at hrest
  | cons g gs ih =>
    cases run with
    | nil => simp
    | cons x xs =>
      obtain ⟨rfl, htail⟩ : x = g ∧ xs ++ after = gs ++ rest := by simpa using h
      have := ih htail fun y hy => hrun y (List.mem_cons_of_mem _ hy)
      simpa using this

def Trivia.isComment (t : Trivia) : Bool :=
  match t.kind with
  | .comment _ => true
  | _ => false

namespace Piece

def span : Piece → Span
  | .token t | .openString t => t.span
  | .trivia t => t.span
  | .comment c _ => c.span
  | .fault f => f.span

def isComment : Piece → Bool
  | .comment _ _ => true
  | .trivia t => t.isComment
  | _ => false

/-- The piece takes up the text that stands at the offset. -/
structure Fills (p : Piece) (offset : Nat) (text : List Char) : Prop where
  span : p.span = ⟨offset, offset + byteSize text⟩
  nonempty : text ≠ []
  text : ∀ t, p.token? = some t → t.text.toList = text
  cause : ∀ f, p = .fault f → f.cause ≠ .openString
  quoted : ∀ t, p = .openString t → ∃ q, t.kind = .string q

/-- Between the text of the piece and the rest stands the gap, which only a comment can
leave. -/
structure Trails (p : Piece) (text gap rest : List Char) : Prop where
  returns : ∀ c ∈ gap, c = '\r'
  comment : p.isComment = false → gap = []
  lineEnd : p.isComment = true → text.getLast? ≠ some '\r' ∧ ∀ c, rest.head? = some c → c = '\n'

/-- A piece that is no comment leaves nothing behind. -/
theorem Trails.nothing {p : Piece} {text rest : List Char} (h : p.isComment = false) :
    p.Trails text [] rest :=
  ⟨nofun, fun _ => rfl, fun hc => absurd (h.symm.trans hc) nofun⟩

/-- A byte trails a comment if it stands in the gap behind it. -/
theorem Fills.trailedBy_iff {p : Piece} {offset i : Nat} {source before text gap rest : List Char}
    (hf : p.Fills offset text) (ht : p.Trails text gap rest) (hcom : p.isComment = true)
    (hs : source = before ++ (text ++ (gap ++ rest))) (hb : byteSize before = offset) :
    p.span.TrailedBy source i ↔
      offset + byteSize text ≤ i ∧ i < offset + byteSize text + byteSize gap := by
  have hend := ht.lineEnd hcom
  have hstop : p.span.stop = offset + byteSize text := by rw [hf.span]
  constructor
  · rintro ⟨b, run, after, hsrc, hbs, -, hrun, -, hle, hlt⟩
    -- No longer run of returns begins where the comment ends.
    have hsplit : b ++ (run ++ after) = (before ++ text) ++ (gap ++ rest) := by
      rw [← hsrc, hs, List.append_assoc]
    obtain ⟨-, hrest⟩ := eq_of_byteSize_eq hsplit (by rw [hbs, hstop, byteSize_append, hb])
    have hnot : rest.head? ≠ some '\r' := fun hr => absurd (hend.2 _ hr) (by decide)
    have := byteSize_run_le hrest hrun hnot
    omega
  · rintro ⟨hle, hlt⟩
    refine ⟨before ++ text, gap, rest, by simp [hs], by simp [hb, hstop], ?_, ht.returns, hend.2,
      by omega, by omega⟩
    rw [List.getLast?_append, Option.or_of_isSome (by simp [hf.nonempty])]
    exact hend.1

end Piece

/-- The pieces are laid out on the text, the first of them at the offset. -/
inductive Laid : Nat → List Char → List Piece → Prop
  | nil {offset : Nat} : Laid offset [] []
  | cons {offset : Nat} {p : Piece} {ps : List Piece} {text gap rest : List Char} :
      p.Fills offset text → p.Trails text gap rest →
      Laid (offset + byteSize text + byteSize gap) rest ps →
      Laid offset (text ++ (gap ++ rest)) (p :: ps)

/-- The first character of a lexeme is the one that was scanned. -/
theorem Lexeme.scan_text_head (c : Char) (cs : List Char) :
    (Lexeme.scan c cs).text.head? = some c := by
  have hs := Lexeme.scan_split c cs
  have hne := Lexeme.scan_text_ne_nil c cs
  cases h : (Lexeme.scan c cs).text with
  | nil => exact absurd h hne
  | cons d ds =>
    rw [h] at hs
    simpa using (List.cons.inj hs).1

/-- A carriage return is a blank. -/
theorem Lexeme.ne_return_of_kind {c : Char} {cs : List Char}
    (h : (Lexeme.scan c cs).kind ≠ .blank) : c ≠ '\r' := by
  rintro rfl
  exact h rfl

theorem head_dropWhile_isOnLine {cs : List Char} {c : Char}
    (h : (cs.dropWhile isOnLine).head? = some c) : c = '\n' := by
  have hn := List.head?_dropWhile_not isOnLine cs
  rw [h] at hn
  simpa [isOnLine] using hn

/-- A remark runs to the end of its line. -/
theorem Lexeme.scan_remark_rest {c : Char} {cs : List Char}
    (h : (Lexeme.scan c cs).kind = .remark) :
    (Lexeme.scan c cs).rest = cs.dropWhile isOnLine := by
  unfold Lexeme.scan at h ⊢
  split at h
  case _ => cases h
  case _ => cases h
  case _ =>
    unfold ampersand at h
    split at h <;> cases h
  case _ => rfl
  case _ => cases h
  case _ =>
    unfold number at h
    split at h <;> cases h
  case _ =>
    unfold point at h
    repeat' split at h
    all_goals cases h
  case _ =>
    unfold quoted at h
    dsimp only at h
    repeat' split at h
    all_goals cases h
  case _ =>
    unfold symbol at h
    repeat' split at h
    all_goals cases h
  case _ => cases h

namespace Lexer

/-- Trimming takes the carriage returns at the end and nothing else. -/
theorem trimReturns_split (text : List Char) : ∃ gap, text = trimReturns text ++ gap ∧
    (∀ c ∈ gap, c = '\r') ∧ (trimReturns text).getLast? ≠ some '\r' := by
  refine ⟨(text.reverse.takeWhile (· == '\r')).reverse, ?_, ?_, ?_⟩
  · rw [trimReturns, ← List.reverse_append, List.takeWhile_append_dropWhile, List.reverse_reverse]
  · intro c hc
    simpa using List.all_eq_true.mp List.all_takeWhile c (List.mem_reverse.mp hc)
  · intro h
    rw [trimReturns, List.getLast?_reverse] at h
    have hn := List.head?_dropWhile_not (· == '\r') text.reverse
    rw [h] at hn
    simp at hn

/-- Reading from `s` takes a piece from the front of the text and goes on behind it. -/
def Lays (s : Lexer) (source : List Char) (r : Piece × Lexer) : Prop :=
  ∃ text gap, source = text ++ (gap ++ r.2.rest) ∧ r.1.Fills s.offset text ∧
    r.1.Trails text gap r.2.rest ∧ r.2.offset = s.offset + byteSize text + byteSize gap

/-- What is no comment takes the whole lexeme and leaves nothing behind. -/
theorem lays_plain {s s' : Lexer} {l : Lexeme} {p : Piece} (hp : p.Fills s.offset l.text)
    (hc : p.isComment = false) (hr : s'.rest = l.rest)
    (ho : s'.offset = s.offset + byteSize l.text) : s.Lays (l.text ++ l.rest) (p, s') :=
  ⟨l.text, [], by simp [hr], hp, .nothing hc, by simp [ho]⟩

theorem lays_trivia {s s' : Lexer} {l : Lexeme} {k : TriviaKind} (hne : l.text ≠ [])
    (hk : ∀ mark, k ≠ .comment mark) (hr : s'.rest = l.rest)
    (ho : s'.offset = s.offset + byteSize l.text) :
    s.Lays (l.text ++ l.rest) (.trivia ⟨k, s.spanOf l.text⟩, s') := by
  refine lays_plain ⟨rfl, hne, by simp [Piece.token?], by simp, by simp⟩ ?_ hr ho
  cases k with
  | comment mark => exact absurd rfl (hk mark)
  | _ => rfl

theorem lays_fault {s : Lexer} {l : Lexeme} {cause : Cause} (hne : l.text ≠ [])
    (hc : cause ≠ .openString) :
    s.Lays (l.text ++ l.rest) (.fault ⟨cause, s.spanOf l.text⟩, s.skip l) := by
  refine lays_plain ⟨rfl, hne, by simp [Piece.token?], ?_, by simp⟩ rfl rfl rfl
  rintro _ ⟨⟩
  exact hc

theorem lays_emit {s : Lexer} {l : Lexeme} (k : TokenKind) (hne : l.text ≠ []) :
    s.Lays (l.text ++ l.rest) (s.emit k l) := by
  refine lays_plain ⟨rfl, hne, ?_, by simp, by simp⟩ rfl rfl rfl
  rintro _ ⟨⟩
  simp [tokenOf]

/-- A comment takes its line up to the carriage returns. -/
theorem lays_remark {s : Lexer} {l : Lexeme} {c : Char} (mark : CommentMark)
    (hhead : l.text.head? = some c) (hc : c ≠ '\r')
    (hend : ∀ c, l.rest.head? = some c → c = '\n') :
    s.Lays (l.text ++ l.rest) (s.remark mark l) := by
  obtain ⟨gap, hsplit, hgap, hlast⟩ := trimReturns_split l.text
  refine ⟨trimReturns l.text, gap, ?_, ⟨rfl, ?_, by simp [remark, Piece.token?], by simp [remark], by simp [remark]⟩,
    ⟨hgap, by simp [remark, Piece.isComment], fun _ => ⟨hlast, hend⟩⟩, ?_⟩
  · rw [← List.append_assoc, ← hsplit]
    rfl
  · intro hnil
    rw [hnil, List.nil_append] at hsplit
    rw [hsplit] at hhead
    exact hc (hgap c (List.mem_of_head? hhead))
  · change s.offset + byteSize l.text = _
    have hsize := congrArg byteSize hsplit
    rw [byteSize_append] at hsize
    omega

/-- A comment that is opened by a word or a mark. -/
theorem lays_toLineEnd {s : Lexer} {l : Lexeme} {c : Char} (mark : CommentMark)
    (hhead : l.text.head? = some c) (hc : c ≠ '\r') :
    s.Lays (l.text ++ l.rest) (s.remark mark l.toLineEnd) := by
  rw [← l.toLineEnd_split]
  refine lays_remark mark (c := c) ?_ hc fun _ => head_dropWhile_isOnLine
  simp [Lexeme.toLineEnd, hhead]

/-- What one step takes from the source, and where it leaves the lexer. -/
theorem step_lays (s : Lexer) (c : Char) (cs : List Char) :
    s.Lays (c :: cs) (s.step (Lexeme.scan c cs)) := by
  have hhead := Lexeme.scan_text_head c cs
  have hne := Lexeme.scan_text_ne_nil c cs
  have hreturn := @Lexeme.ne_return_of_kind c cs
  have hremark := @Lexeme.scan_remark_rest c cs
  rw [← Lexeme.scan_split c cs]
  generalize Lexeme.scan c cs = l at hhead hne hreturn hremark
  unfold step
  cases hk : l.kind with
  | blank | newline | continuation => exact lays_trivia hne (by simp) rfl rfl
  | ampersand | invalid => exact lays_fault hne (by simp)
  | remark =>
    refine lays_remark .bang hhead (hreturn (by simp [hk])) fun d hd => ?_
    rw [hremark hk] at hd
    exact head_dropWhile_isOnLine hd
  | word =>
    dsimp only
    split
    · exact lays_emit _ hne
    · split
      · exact lays_toLineEnd .rem hhead (hreturn (by simp [hk]))
      · exact lays_emit _ hne
  | symbol y =>
    dsimp only
    split
    · exact lays_toLineEnd .star hhead (hreturn (by simp [hk]))
    · exact lays_emit _ hne
  | systemName | number | string => exact lays_emit _ hne
  | openString q =>
    refine lays_plain ⟨rfl, hne, ?_, by simp, ?_⟩ rfl rfl rfl
    · rintro _ ⟨⟩
      simp [tokenOf]
    · rintro _ ⟨⟩
      exact ⟨q, rfl⟩

/-- The pieces of a source are laid out on it. -/
theorem pieces_laid (s : Lexer) : Laid s.offset s.rest s.pieces := by
  induction s using Lexer.pieces_induction with
  | nil s h =>
    rw [pieces_nil h, h]
    exact .nil
  | cons s c cs h ih =>
    obtain ⟨text, gap, hsplit, hf, ht, ho⟩ := s.step_lays c cs
    rw [pieces_cons h, h, hsplit]
    exact .cons hf ht (ho ▸ ih)

end Lexer

namespace Laid
variable {offset i : Nat} {source text : List Char} {ps : List Piece} {p : Piece}

/-- Each piece holds a text of the source, not empty, and a token has it for its text. -/
theorem holds (h : Laid offset text ps) (before : List Char) (hs : source = before ++ text)
    (hb : byteSize before = offset) (hp : p ∈ ps) : ∃ held, held ≠ [] ∧
      p.span.Holds source held ∧ ∀ t, p.token? = some t → t.text.toList = held := by
  induction h generalizing before with
  | nil => cases hp
  | @cons offset q ps text gap rest hf _ _ ih =>
    obtain rfl | hp := List.mem_cons.mp hp
    · exact ⟨text, hf.nonempty, ⟨before, gap ++ rest, hs, by rw [hf.span, hb], by rw [hf.span]⟩,
        hf.text⟩
    · refine ih (before ++ (text ++ gap)) ?_ ?_ hp
      · simp [hs]
      · simp [hb, Nat.add_assoc]

theorem start_le (h : Laid offset text ps) (hp : p ∈ ps) : offset ≤ p.span.start := by
  induction h with
  | nil => cases hp
  | cons hf _ _ ih =>
    obtain rfl | hp := List.mem_cons.mp hp
    · exact Nat.le_of_eq (congrArg Span.start hf.span).symm
    · have := ih hp
      omega

theorem lt_stop (h : Laid offset text ps) (hp : p ∈ ps) : offset < p.span.stop := by
  induction h with
  | nil => cases hp
  | cons hf _ _ ih =>
    have hpos := byteSize_pos hf.nonempty
    obtain rfl | hp := List.mem_cons.mp hp
    · rw [hf.span]
      dsimp only
      omega
    · have := ih hp
      omega

theorem stop_le (h : Laid offset text ps) (hp : p ∈ ps) : p.span.stop ≤ offset + byteSize text := by
  induction h with
  | nil => cases hp
  | cons hf _ _ ih =>
    simp only [byteSize_append]
    obtain rfl | hp := List.mem_cons.mp hp
    · have hstop := congrArg Span.stop hf.span
      dsimp only at hstop
      omega
    · have := ih hp
      omega

/-- Each piece ends before the next one starts. -/
theorem apart (h : Laid offset text ps) :
    ps.Pairwise fun p q => p.span.start < p.span.stop ∧ p.span.stop ≤ q.span.start := by
  induction h with
  | nil => exact .nil
  | cons hf _ hl ih =>
    refine List.pairwise_cons.mpr ⟨fun q hq => ?_, ih⟩
    have hpos := byteSize_pos hf.nonempty
    have hle := hl.start_le hq
    rw [hf.span]
    dsimp only
    omega

theorem count_eq_zero (h : Laid offset text ps) (hi : i < offset) :
    (ps.map Piece.span).countP (Span.contains i) = 0 := by
  refine List.countP_eq_zero.mpr fun x hx => ?_
  obtain ⟨p, hp, rfl⟩ := List.mem_map.mp hx
  have := h.start_le hp
  simp only [Span.contains, Bool.and_eq_true, decide_eq_true_eq]
  omega

/-- A byte lies in exactly one piece, unless it is one of the carriage returns behind a
comment, which lie in none. -/
theorem count_contains (h : Laid offset text ps) (before : List Char) (hs : source = before ++ text)
    (hb : byteSize before = offset) (hle : offset ≤ i) (hlt : i < byteSize source) :
    ((∃ p ∈ ps, p.isComment = true ∧ p.span.TrailedBy source i) →
      (ps.map Piece.span).countP (Span.contains i) = 0) ∧
    ((¬∃ p ∈ ps, p.isComment = true ∧ p.span.TrailedBy source i) →
      (ps.map Piece.span).countP (Span.contains i) = 1) := by
  induction h generalizing before with
  | nil =>
    rw [hs, List.append_nil, hb] at hlt
    omega
  | @cons offset p ps text gap rest hf ht hl ih =>
    have hcontains : p.span.contains i = true ↔ i < offset + byteSize text := by
      simp [Span.contains, hf.span, hle]
    rw [List.map_cons, List.countP_cons]
    simp only [List.mem_cons, exists_eq_or_imp]
    by_cases hgap : i < offset + byteSize text + byteSize gap
    · -- The other pieces lie behind the byte.
      have hbehind : ¬∃ q ∈ ps, q.isComment = true ∧ q.span.TrailedBy source i := by
        rintro ⟨q, hq, -, _, _, _, _, _, _, _, _, hqi, _⟩
        have := hl.lt_stop hq
        omega
      rw [hl.count_eq_zero hgap, or_iff_left hbehind]
      by_cases hin : i < offset + byteSize text
      · rw [if_pos (hcontains.mpr hin)]
        refine ⟨fun ⟨hcom, htrailed⟩ => ?_, fun _ => rfl⟩
        have := (hf.trailedBy_iff ht hcom hs hb).mp htrailed
        omega
      · rw [if_neg (mt hcontains.mp hin)]
        refine ⟨fun _ => rfl, fun hnot => absurd ?_ hnot⟩
        have hcom : p.isComment = true := by
          refine eq_true_of_ne_false fun hcom => ?_
          rw [ht.comment hcom, byteSize_nil] at hgap
          omega
        exact ⟨hcom, (hf.trailedBy_iff ht hcom hs hb).mpr ⟨by omega, hgap⟩⟩
    · have ih := ih (before ++ (text ++ gap)) (by simp [hs]) (by simp [hb, Nat.add_assoc])
        (by omega)
      have hfirst : ¬(p.isComment = true ∧ p.span.TrailedBy source i) := by
        rintro ⟨hcom, htrailed⟩
        exact hgap ((hf.trailedBy_iff ht hcom hs hb).mp htrailed).2
      rw [if_neg (mt hcontains.mp (by omega)), Nat.add_zero, or_iff_right hfirst]
      exact ih

end Laid

namespace Lexing

/-- The ranges of tokens, trivia and faults. A string that its line leaves open is counted
once, as the token that it is. -/
def ranges (l : Lexing) : List Span :=
  l.tokens.map Token.span ++ (l.trivia.map Trivia.span ++
    (l.faults.filter fun f => f.cause ≠ .openString).map Fault.span)

/-- Every piece has its range in exactly one of the three lists. -/
theorem ranges_perm {ps : List Piece} (h : ∀ f, .fault f ∈ ps → f.cause ≠ .openString) :
    (ofPieces ps).ranges.Perm (ps.map Piece.span) := by
  induction ps with
  | nil => exact .nil
  | cons p ps ih =>
    have ih := ih fun f hf => h f (List.mem_cons_of_mem _ hf)
    refine List.Perm.trans ?_ (ih.cons p.span)
    cases p with
    | token t => exact .refl _
    | trivia t => exact List.perm_middle
    | comment c standing => exact List.perm_middle
    | fault f =>
      have hf : decide (f.cause ≠ .openString) = true := decide_eq_true (h f (by simp))
      simp only [ranges, ofPieces, List.filterMap_cons, Piece.token?, Piece.trivia?, Piece.fault?,
        List.filter_cons, hf, if_true, List.map_cons]
      rw [← List.append_assoc, ← List.append_assoc]
      exact List.perm_middle
    | openString t => exact .refl _

/-- The bytes of a source are accounted for by what was read from it. -/
structure Accounted (source : List Char) (l : Lexing) : Prop where
  /-- No range is empty. -/
  nonempty : ∀ x ∈ l.ranges, x.start < x.stop
  /-- Ranges begin and end between characters. -/
  boundaries : ∀ x ∈ l.ranges, IsBoundary source x.start ∧ IsBoundary source x.stop
  /-- No two ranges overlap. -/
  disjoint : l.ranges.Pairwise fun x y => x.stop ≤ y.start ∨ y.stop ≤ x.start
  tokens : l.tokens.Pairwise fun t u => t.span.stop ≤ u.span.start
  trivia : l.trivia.Pairwise fun t u => t.span.stop ≤ u.span.start
  faults : l.faults.Pairwise fun f g => f.span.stop ≤ g.span.start
  /-- A byte lies in one range, unless it is a carriage return that ends the line of a
  comment. -/
  covered : ∀ i < byteSize source,
    (¬∃ t ∈ l.trivia, t.isComment = true ∧ t.span.TrailedBy source i) →
      l.ranges.countP (Span.contains i) = 1
  /-- Those carriage returns lie in none. -/
  uncovered : ∀ i < byteSize source,
    (∃ t ∈ l.trivia, t.isComment = true ∧ t.span.TrailedBy source i) →
      l.ranges.countP (Span.contains i) = 0
  openStrings : ∀ f ∈ l.faults, f.cause = .openString →
    ∃ t ∈ l.tokens, t.span = f.span ∧ ∃ q, t.kind = .string q
  texts : ∀ t ∈ l.tokens, t.span.Holds source t.text.toList

end Lexing

section Views
variable {offset : Nat} {source text : List Char} {ps : List Piece} {p : Piece}

theorem Piece.span_of_token? {t : Token} (h : p.token? = some t) : p.span = t.span := by
  cases p <;> cases h <;> rfl

theorem Piece.span_of_trivia? {t : Trivia} (h : p.trivia? = some t) :
    p.span = t.span ∧ p.isComment = t.isComment := by
  cases p <;> cases h <;> exact ⟨rfl, rfl⟩

theorem Piece.span_of_fault? {f : Fault} (h : p.fault? = some f) : p.span = f.span := by
  cases p <;> cases h <;> rfl

/-- What is in order among the pieces is in order in each view of them. -/
theorem Laid.pairwise_view {α : Type} {view : Piece → Option α} {range : α → Span}
    (h : Laid offset text ps) (hview : ∀ p a, view p = some a → p.span = range a) :
    (ps.filterMap view).Pairwise fun a b => (range a).stop ≤ (range b).start := by
  refine List.Pairwise.filterMap view (fun p q hpq a ha b hb => ?_) h.apart
  rw [← hview p a ha, ← hview q b hb]
  exact hpq.2

/-- The comments among the trivia are the pieces that are comments. -/
theorem exists_comment_iff (P : Span → Prop) :
    (∃ t ∈ (Lexing.ofPieces ps).trivia, t.isComment = true ∧ P t.span) ↔
      ∃ p ∈ ps, p.isComment = true ∧ P p.span := by
  constructor
  · rintro ⟨t, ht, hc, hP⟩
    obtain ⟨p, hp, hpt⟩ := List.mem_filterMap.mp ht
    obtain ⟨hspan, hcom⟩ := Piece.span_of_trivia? hpt
    exact ⟨p, hp, hcom.trans hc, hspan ▸ hP⟩
  · rintro ⟨p, hp, hc, hP⟩
    obtain ⟨t, ht⟩ : ∃ t, p.trivia? = some t := by
      cases p <;> first
        | exact ⟨_, rfl⟩
        | cases hc
    obtain ⟨hspan, hcom⟩ := Piece.span_of_trivia? ht
    exact ⟨t, List.mem_filterMap.mpr ⟨p, hp, ht⟩, hcom.symm.trans hc, hspan ▸ hP⟩

theorem Laid.cause (h : Laid offset text ps) : ∀ f, .fault f ∈ ps → f.cause ≠ .openString := by
  induction h with
  | nil => simp
  | cons hf _ _ ih =>
    intro f hmem
    obtain hmem | hmem := List.mem_cons.mp hmem
    · exact hf.cause f hmem.symm
    · exact ih f hmem

theorem Laid.quoted (h : Laid offset text ps) :
    ∀ t, .openString t ∈ ps → ∃ q, t.kind = .string q := by
  induction h with
  | nil => simp
  | cons hf _ _ ih =>
    intro t hmem
    obtain hmem | hmem := List.mem_cons.mp hmem
    · exact hf.quoted t hmem.symm
    · exact ih t hmem

/-- Pieces that are laid out on a whole source account for its bytes. -/
theorem Laid.accounted (h : Laid 0 source ps) : (Lexing.ofPieces ps).Accounted source := by
  have hperm := Lexing.ranges_perm h.cause
  have hholds {p : Piece} (hp : p ∈ ps) := h.holds [] rfl rfl hp
  have hmem {x : Span} (hx : x ∈ (Lexing.ofPieces ps).ranges) :
      ∃ held, held ≠ [] ∧ x.Holds source held := by
    obtain ⟨p, hp, rfl⟩ := List.mem_map.mp (hperm.mem_iff.mp hx)
    obtain ⟨held, hne, hx, -⟩ := hholds hp
    exact ⟨held, hne, hx⟩
  refine ⟨fun x hx => ?_, fun x hx => ?_, ?_, h.pairwise_view fun _ _ => Piece.span_of_token?,
    h.pairwise_view fun _ _ ht => (Piece.span_of_trivia? ht).1,
    h.pairwise_view fun _ _ => Piece.span_of_fault?, fun i hi => ?_, fun i hi => ?_, ?_, ?_⟩
  · obtain ⟨held, hne, _, _, _, _, hstop⟩ := hmem hx
    have := byteSize_pos hne
    omega
  · obtain ⟨_, _, hx⟩ := hmem hx
    exact hx.boundaries
  · refine (hperm.pairwise_iff fun hxy => hxy.symm).mpr (List.pairwise_map.mpr ?_)
    exact h.apart.imp fun hpq => .inl hpq.2
  · rw [hperm.countP_eq]
    exact fun hnot => (h.count_contains [] rfl rfl (Nat.zero_le i) hi).2
      fun hex => hnot ((exists_comment_iff (·.TrailedBy source i)).mpr hex)
  · rw [hperm.countP_eq]
    exact fun hex => (h.count_contains [] rfl rfl (Nat.zero_le i) hi).1
      ((exists_comment_iff (·.TrailedBy source i)).mp hex)
  · intro f hf hcause
    obtain ⟨p, hp, hpf⟩ := List.mem_filterMap.mp hf
    cases p with
    | fault g =>
      cases hpf
      exact absurd hcause (h.cause _ hp)
    | openString t =>
      cases hpf
      exact ⟨t, List.mem_filterMap.mpr ⟨_, hp, rfl⟩, rfl, h.quoted t hp⟩
    | _ => cases hpf
  · intro t ht
    obtain ⟨p, hp, hpt⟩ := List.mem_filterMap.mp ht
    obtain ⟨held, -, hx, htext⟩ := hholds hp
    rw [htext t hpt, ← Piece.span_of_token? hpt]
    exact hx

end Views

/-- The lexer accounts for every byte of every source. The ranges of tokens, trivia and faults
are not empty, lie between characters, are in order and do not overlap, and a byte that lies
in none of them is a carriage return that ends the line of a comment. A string left open is a
token, and the text of a token is what stands in the source at its range. -/
theorem lex_accounts_for_bytes (source : String) : (lex source).Accounted source.toList :=
  (Lexer.pieces_laid (Lexer.start source.toList)).accounted

end PickSyntax
