import PickSyntax.Proofs.Diagnostic.Collector
import PickSyntax.Proofs.Rendering.Words
import PickSyntax.Proofs.View.Program

/-!
# Sources that differ in the case of letters

Two sources that are the same but for the case of their letters look the same once all letters
are folded. Folding commutes with every scanner: no scanner tells one letter from another, and
the words of the language are found in any case. So a folded source has the lexemes of the
source, folded, and the pieces, tokens and programs that follow from them are those of the
source as they look folded.
-/
namespace PickSyntax

section Chars
variable {c : Char}

/-- A character is a letter, or folding leaves it alone. -/
theorem isAlpha_or_toLower_eq (c : Char) : c.isAlpha = true ∨ c.toLower = c := by
  cases h : c.isUpper with
  | true => exact .inl (by simp [Char.isAlpha, h])
  | false => exact .inr (Char.toLower_eq_of_not_isUpper (by simp [h]))

/-- A test that all letters pass, or none, does not see their case. -/
theorem comp_toLower {p : Char → Bool} (b : Bool) (h : ∀ c : Char, c.isAlpha = true → p c = b) :
    p ∘ Char.toLower = p := by
  funext c
  obtain hc | hc := isAlpha_or_toLower_eq c
  · rw [Function.comp_apply, h c hc, h _ (by rwa [Char.isAlpha_toLower_eq_isAlpha])]
  · rw [Function.comp_apply, hc]

theorem utf8Size_of_isAlpha (h : c.isAlpha = true) : c.utf8Size = 1 := by
  have hle : c.val ≤ 0x7F := by
    simp only [Char.isAlpha, Char.isUpper, Char.isLower, Bool.or_eq_true, Bool.and_eq_true,
      decide_eq_true_eq, UInt32.le_iff_toNat_le, ge_iff_le] at h ⊢
    change _ ≤ 127
    change (65 ≤ _ ∧ _ ≤ 90) ∨ (97 ≤ _ ∧ _ ≤ 122) at h
    omega
  rw [Char.utf8Size]
  exact if_pos hle

theorem utf8Size_toLower (c : Char) : c.toLower.utf8Size = c.utf8Size := by
  obtain hc | hc := isAlpha_or_toLower_eq c
  · rw [utf8Size_of_isAlpha hc, utf8Size_of_isAlpha (by rwa [Char.isAlpha_toLower_eq_isAlpha])]
  · rw [hc]

theorem byteSize_fold (cs : List Char) : byteSize (cs.map Char.toLower) = byteSize cs := by
  induction cs with
  | nil => rfl
  | cons c cs ih => rw [List.map_cons, byteSize_cons, byteSize_cons, utf8Size_toLower, ih]

theorem CharClass.of_toLower (c : Char) : of c.toLower = of c := by
  obtain hc | hc := isAlpha_or_toLower_eq c
  · rw [of_isAlpha hc, of_isAlpha (by rwa [Char.isAlpha_toLower_eq_isAlpha])]
  · rw [hc]

/-- No mark of the language is a letter. -/
theorem ne_of_isAlpha (h : c.isAlpha = true) {d : Char} (hd : d.isAlpha = false) : c ≠ d :=
  fun he => by rw [he, hd] at h; contradiction

theorem isBlank_comp : isBlank ∘ Char.toLower = isBlank :=
  comp_toLower false fun _ => isBlank_of_isAlpha

theorem isOnLine_comp : isOnLine ∘ Char.toLower = isOnLine :=
  comp_toLower true fun _ h => by simpa [isOnLine] using ne_of_isAlpha h rfl

theorem isWordChar_comp : isWordChar ∘ Char.toLower = isWordChar :=
  comp_toLower true fun _ h => by simp [isWordChar, Char.isAlphanum, h]

theorem isSystemNameChar_comp : isSystemNameChar ∘ Char.toLower = isSystemNameChar :=
  comp_toLower true fun _ h => by simp [isSystemNameChar, Char.isAlphanum, h]

theorem isDigit_comp : Char.isDigit ∘ Char.toLower = Char.isDigit :=
  comp_toLower false fun c h => by
    cases hd : c.isDigit with
    | false => rfl
    | true => rw [isAlpha_eq_false_of_isDigit hd] at h; contradiction

theorem isInside_comp (q : Quote) : Lexeme.isInside q ∘ Char.toLower = Lexeme.isInside q :=
  comp_toLower true fun _ h => by
    have hq := ne_of_isAlpha h (d := q.char) (by cases q <;> rfl)
    have hn := ne_of_isAlpha h (d := '\n') rfl
    simp [Lexeme.isInside, hq, hn]

end Chars

namespace Lexeme

def fold (l : Lexeme) : Lexeme := ⟨l.kind, l.text.map Char.toLower, l.rest.map Char.toLower⟩

variable (c : Char) (cs : List Char)

theorem run_fold (k : LexemeKind) {p : Char → Bool} (hp : p ∘ Char.toLower = p) :
    run k p c.toLower (cs.map Char.toLower) = (run k p c cs).fold := by
  simp [run, fold, List.takeWhile_map, List.dropWhile_map, hp]

theorem single_fold (k : LexemeKind) :
    single k c.toLower (cs.map Char.toLower) = (single k c cs).fold := by
  simp [single, fold]

/-- A character that folding does not touch begins the rest after folding if it does before. -/
theorem head_toLower {d : Char} (hd : d.isAlpha = false) (d' : Char) : d'.toLower = d ↔ d' = d :=
  View.folded.char_eq_iff hd

theorem ampersand_fold :
    ampersand c.toLower (cs.map Char.toLower) = (ampersand c cs).fold := by
  have hnl : ∀ {d : Char}, d ≠ '\n' → d.toLower ≠ '\n' := (head_toLower rfl _).not.mpr
  have hcr : ∀ {d : Char}, d ≠ '\r' → d.toLower ≠ '\r' := (head_toLower rfl _).not.mpr
  cases cs with
  | nil => rfl
  | cons d ds =>
    by_cases hn : d = '\n'
    · subst hn
      rfl
    by_cases hr : d = '\r'
    · subst hr
      cases ds with
      | nil => rfl
      | cons e es =>
        by_cases he : e = '\n'
        · subst he
          rfl
        · have hr : '\r'.toLower = '\r' := rfl
          simp [ampersand, single, fold, he, hnl he, hr]
    · simp [ampersand, single, fold, hn, hr, hnl hn, hcr hr]

theorem symbol_fold (y : Symbol) :
    symbol y c.toLower (cs.map Char.toLower) = (symbol y c cs).fold := by
  cases cs with
  | nil => cases y <;> rfl
  | cons d ds =>
    by_cases hy : y = .atSign
    · subst hy
      simp only [symbol, List.map_cons, Char.isAlpha_toLower_eq_isAlpha]
      split
      · simp [fold, List.takeWhile_map, List.dropWhile_map, isSystemNameChar_comp]
      · exact single_fold c (d :: ds) _
    · simp [symbol, single, fold, hy]

theorem number_fold : number c.toLower (cs.map Char.toLower) = (number c cs).fold := by
  rw [number, List.dropWhile_map, isDigit_comp, number]
  have hrun := run_fold c cs .number isDigit_comp
  cases hd : cs.dropWhile Char.isDigit with
  | nil => exact hrun
  | cons d ds =>
    by_cases hp : d = '.'
    · subst hp
      simp [fold, List.takeWhile_map, List.dropWhile_map, isDigit_comp,
        (head_toLower (d := '.') rfl '.').mpr rfl]
    · have hp' : d.toLower ≠ '.' := (head_toLower rfl d).not.mpr hp
      simpa [hp, hp'] using hrun

theorem invalid_fold (hc : c.toLower = c) :
    single (.invalid c.toLower) c.toLower (cs.map Char.toLower) =
      (single (.invalid c) c cs).fold := by
  rw [hc]
  simp [single, fold, hc]

theorem point_fold (hc : c.toLower = c) :
    point c.toLower (cs.map Char.toLower) = (point c cs).fold := by
  have hd : ∀ d : Char, d.toLower.isDigit = d.isDigit := congrFun isDigit_comp
  cases cs with
  | nil => exact invalid_fold c [] hc
  | cons d ds =>
    simp only [point, List.map_cons, hd]
    split
    · exact run_fold c (d :: ds) _ isDigit_comp
    · exact invalid_fold c (d :: ds) hc

theorem quoted_fold (q : Quote) (hc : c.toLower = c) :
    quoted q c.toLower (cs.map Char.toLower) = (quoted q c cs).fold := by
  have hq : ∀ d : Char, (d.toLower == q.char) = (d == q.char) := fun d => by
    rw [Bool.eq_iff_iff, beq_iff_eq, beq_iff_eq]
    exact head_toLower (by cases q <;> rfl) d
  have hcr : ∀ body : List Char, (body.map Char.toLower).contains '\r' = body.contains '\r' := by
    intro body
    rw [Bool.eq_iff_iff, List.contains_iff_mem, List.contains_iff_mem, List.mem_map]
    refine ⟨fun ⟨d, hd, he⟩ => (head_toLower rfl d).mp he ▸ hd, fun h => ⟨_, h, rfl⟩⟩
  rw [quoted, quoted, List.takeWhile_map, List.dropWhile_map, isInside_comp]
  simp only [hcr, hc]
  cases hd : cs.dropWhile (isInside q) with
  | nil => simp [fold, hc]
  | cons d ds =>
    simp only [List.map_cons, hq]
    split <;> simp [fold, hc]

/-- A folded source has the lexemes of the source, folded. -/
theorem scan_fold : scan c.toLower (cs.map Char.toLower) = (scan c cs).fold := by
  have hfix : CharClass.of c ≠ .letter → c.toLower = c := fun h =>
    (isAlpha_or_toLower_eq c).resolve_left fun hl => h (CharClass.of_isAlpha hl)
  rw [scan, CharClass.of_toLower, scan]
  cases hc : CharClass.of c with
  | blank => exact run_fold c cs _ isBlank_comp
  | newline => exact single_fold c cs _
  | ampersand => exact ampersand_fold c cs
  | bang => exact run_fold c cs _ isOnLine_comp
  | letter => exact run_fold c cs _ isWordChar_comp
  | digit => exact number_fold c cs
  | point => exact point_fold c cs (hfix (by simp [hc]))
  | quote q => exact quoted_fold c cs q (hfix (by simp [hc]))
  | symbol y => exact symbol_fold c cs y
  | other => exact invalid_fold c cs (hfix (by simp [hc]))

theorem toLineEnd_fold (l : Lexeme) : l.fold.toLineEnd = l.toLineEnd.fold := by
  simp [toLineEnd, fold, List.takeWhile_map, List.dropWhile_map, isOnLine_comp]

end Lexeme

theorem Position.after_fold (p : Position) (text : List Char) :
    p.after (text.map Char.toLower) = p.after text := by
  induction text generalizing p with
  | nil => rfl
  | cons c cs ih =>
    have ha : p.advance c.toLower = p.advance c := by
      simp only [advance, Lexeme.head_toLower (d := '\n') rfl]
    rw [List.map_cons, after_cons, after_cons, ha, ih]

namespace Piece

/-- A piece with its letters folded. Trivia and faults have none. -/
def fold : Piece → Piece
  | .token t => .token (t.seen .folded)
  | .comment c standing => .comment (c.seen .folded) standing
  | .openString t => .openString (t.seen .folded)
  | p => p

end Piece

namespace Lexer

def fold (s : Lexer) : Lexer where
  rest := s.rest.map Char.toLower
  offset := s.offset
  position := s.position
  previous := s.previous.map (Token.seen .folded)
  lineStart := s.lineStart

variable (s : Lexer) (l : Lexeme)

@[simp] theorem atStatement_fold : s.fold.atStatement = s.atStatement := by
  cases hp : s.previous <;> simp [atStatement, fold, hp]

@[simp] theorem spanOf_fold (text : List Char) :
    s.fold.spanOf (text.map Char.toLower) = s.spanOf text := by
  simp [spanOf, fold, byteSize_fold]

@[simp] theorem skip_fold : s.fold.skip l.fold = (s.skip l).fold := by
  simp [skip, fold, Lexeme.fold, byteSize_fold, Position.after_fold]

@[simp] theorem tokenOf_fold (k : TokenKind) :
    s.fold.tokenOf k l.fold = (s.tokenOf k l).seen .folded := by
  have ht : View.folded.text (String.ofList l.text) = String.ofList (l.text.map Char.toLower) := by
    simp [View.text, View.folded]
  have hs : s.fold.spanOf l.fold.text = s.spanOf l.text := s.spanOf_fold l.text
  simp only [tokenOf, Token.seen, ht, hs]
  cases hp : s.previous <;> simp only [fold, hp] <;> rfl

@[simp] theorem accept_fold (t : Token) :
    s.fold.accept (t.seen .folded) l.fold = (s.accept t l).fold := by
  simp only [accept, skip_fold]
  rfl

@[simp] theorem emit_fold (k : TokenKind) :
    s.fold.emit k l.fold = ((s.emit k l).1.fold, (s.emit k l).2.fold) := by
  simp only [emit, tokenOf_fold, accept_fold]
  rfl

theorem trimReturns_fold (text : List Char) :
    trimReturns (text.map Char.toLower) = (trimReturns text).map Char.toLower := by
  have hr : (· == '\r') ∘ Char.toLower = (· == '\r') :=
    comp_toLower false fun _ h => by simpa using ne_of_isAlpha h rfl
  rw [trimReturns, ← List.map_reverse, List.dropWhile_map, hr, ← List.map_reverse, trimReturns]

@[simp] theorem remark_fold (mark : CommentMark) :
    s.fold.remark mark l.fold = ((s.remark mark l).1.fold, (s.remark mark l).2.fold) := by
  have ht : ∀ text : List Char,
      String.ofList (text.map Char.toLower) = View.folded.text (String.ofList text) := by
    simp [View.text, View.folded]
  have hl : l.fold.text = l.text.map Char.toLower := rfl
  simp only [remark, hl, trimReturns_fold, ht, spanOf_fold, atStatement_fold, skip_fold]
  rfl

theorem ofWord?_fold (word : List Char) :
    Keyword.ofWord? (word.map Char.toLower) = Keyword.ofWord? word := by
  simp [Keyword.ofWord?, Function.comp_def]

theorem opensRemark_fold (rest : List Char) :
    opensRemark (rest.map Char.toLower) = opensRemark rest := by
  cases rest with
  | nil => rfl
  | cons c cs =>
    have hc : ∀ d : Char, d.isAlpha = false → (c.toLower == d) = (c == d) := fun d hd => by
      rw [Bool.eq_iff_iff, beq_iff_eq, beq_iff_eq, Lexeme.head_toLower hd]
    simp [opensRemark, hc]

/-- Whatever a lexeme amounts to, its folding amounts to the same, folded. -/
theorem step_fold : s.fold.step l.fold = ((s.step l).1.fold, (s.step l).2.fold) := by
  have hk : l.fold.kind = l.kind := rfl
  have ht : l.fold.text = l.text.map Char.toLower := rfl
  have hr : l.fold.rest = l.rest.map Char.toLower := rfl
  simp only [step, hk]
  cases l.kind with
  | word =>
    simp only [ht, hr, ofWord?_fold, opensRemark_fold]
    cases Keyword.ofWord? l.text with
    | none => exact emit_fold ..
    | some k =>
      simp only
      split
      · rw [Lexeme.toLineEnd_fold, remark_fold]
      · exact emit_fold ..
  | symbol y =>
    simp only [atStatement_fold]
    split
    · rw [Lexeme.toLineEnd_fold, remark_fold]
    · exact emit_fold ..
  | remark => exact remark_fold ..
  | openString q =>
    simp only [tokenOf_fold, accept_fold]
    rfl
  | systemName | number | string _ => exact emit_fold ..
  | _ =>
    simp only [ht, spanOf_fold, skip_fold]
    rfl

theorem pieces_fold : s.fold.pieces = s.pieces.map Piece.fold := by
  induction s using pieces_induction with
  | nil s h => rw [pieces_nil h, pieces_nil (by simp [fold, h]), List.map_nil]
  | cons s c cs h ih =>
    have hf : s.fold.rest = c.toLower :: cs.map Char.toLower := by simp [fold, h]
    rw [pieces_cons h, pieces_cons hf, Lexeme.scan_fold, step_fold, List.map_cons, ih]

end Lexer

namespace Lexing

/-- The lexing with the letters of its texts folded. -/
def fold (l : Lexing) : Lexing where
  tokens := l.tokens.map (Token.seen .folded)
  trivia := l.trivia
  comments := l.comments.map (Comment.seen .folded)
  faults := l.faults

theorem ofPieces_fold (ps : List Piece) : ofPieces (ps.map Piece.fold) = (ofPieces ps).fold := by
  have ht : ∀ p : Piece, p.fold.token? = p.token?.map (Token.seen .folded) := by rintro ⟨⟩ <;> rfl
  have hv : ∀ p : Piece, p.fold.trivia? = p.trivia? := by rintro ⟨⟩ <;> rfl
  have hc : ∀ p : Piece, p.fold.comment? = p.comment?.map (Comment.seen .folded) := by
    rintro (_ | _ | ⟨_, _ | _⟩ | _ | _) <;> rfl
  have hf : ∀ p : Piece, p.fold.fault? = p.fault? := by rintro ⟨⟩ <;> rfl
  simp [ofPieces, fold, List.filterMap_map, List.map_filterMap, ht, hv, hc, hf]

end Lexing

theorem lex_fold (source : String) : lex (View.folded.text source) = (lex source).fold := by
  have hs : Lexer.start (View.folded.text source).toList = (Lexer.start source.toList).fold := by
    simp [Lexer.start, Lexer.fold, View.text, View.folded]
  rw [lex, hs, Lexer.pieces_fold, Lexing.ofPieces_fold, lex]

theorem headSize_fold (cs : List Char) : headSize (cs.map Char.toLower) = headSize cs := by
  cases cs with
  | nil => rfl
  | cons c cs => exact utf8Size_toLower c

theorem count_fold (cs : List Char) : (cs.map Char.toLower).count '\n' = cs.count '\n' := by
  induction cs with
  | nil => rfl
  | cons c cs ih =>
    have hc : (c.toLower == '\n') = (c == '\n') := by
      simp only [beq_eq_beq, Lexeme.head_toLower (d := '\n') rfl]
    rw [List.map_cons, List.count_cons, List.count_cons, ih, hc]

theorem Cut.fold {source lines line : List Char} {offset inside : Nat}
    (h : Cut source offset lines line inside) : Cut (source.map Char.toLower) offset
      (lines.map Char.toLower) (line.map Char.toLower) inside := by
  obtain ⟨⟨rest, rfl, hrest⟩, hended, hunbroken, rfl⟩ := h
  constructor
  · exact ⟨rest.map Char.toLower, by simp, by rwa [headSize_fold]⟩
  · obtain rfl | ⟨ds, rfl⟩ := hended
    · exact .inl rfl
    · exact .inr ⟨ds.map Char.toLower, by simp⟩
  · rwa [← List.count_eq_zero, count_fold, List.count_eq_zero]
  · rw [byteSize_fold, byteSize_fold]

theorem Position.ofOffset_fold (source : List Char) (offset : Nat) :
    ofOffset (source.map Char.toLower) offset = ofOffset source offset := by
  obtain ⟨lines, line, inside, h⟩ := exists_cut (Nat.min_le_right offset (byteSize source))
  have hfold := h.fold
  rw [← byteSize_fold source] at hfold
  rw [ofOffset_of_cut h, ofOffset_of_cut hfold, count_fold, byteSize_fold, List.length_map]

namespace Diagnostic

theorem locate_fold (source : List Char) (severity : Severity) (f : Fault) :
    locate (source.map Char.toLower) severity (f.seen .folded) =
      (locate source severity f).seen .folded := by
  have hp : (f.seen .folded).span.start = f.span.start := rfl
  rw [locate, hp, Position.ofOffset_fold]
  rfl

theorem report_fold (source : List Char) (limit : Nat) (faults : List Fault) :
    report (source.map Char.toLower) limit (faults.map (Fault.seen .folded)) =
      (report source limit faults).map (seen .folded) := by
  have hl : ∀ severity f, locate (source.map Char.toLower) severity (Fault.seen .folded f) =
      (locate source severity f).seen .folded := locate_fold source
  rw [report_eq, ← List.map_take, ← List.map_drop, report_eq, List.map_append, List.map_map,
    List.map_map]
  congr 1
  · simp [Function.comp_def, hl]
  · cases faults.drop limit with
    | nil => rfl
    | cons f fs => exact congrArg (· :: []) (hl .warning ⟨.overLimit limit, f.span⟩)

theorem order_fold (lexical grammar : List Fault) (h : ∀ f ∈ lexical, f.seen .folded = f) :
    order lexical (grammar.map (Fault.seen .folded)) =
      (order lexical grammar).map (Fault.seen .folded) := by
  have hm : (grammar.map (Fault.seen .folded)).mergeSort (fun a b => a.span.start ≤ b.span.start) =
      (grammar.mergeSort fun a b => a.span.start ≤ b.span.start).map (Fault.seen .folded) :=
    (List.map_mergeSort (f := Fault.seen .folded) fun _ _ _ _ => rfl).symm
  rw [order, hm, order, List.map_append, List.map_congr_left h, List.map_id']

end Diagnostic

namespace Lexer

/-- The faults of the lexer quote no words of the source. -/
theorem step_fault_seen {s : Lexer} {l : Lexeme} {f : Fault} (h : (s.step l).1.fault? = some f) :
    f.seen .folded = f := by
  unfold step at h
  repeat' split at h
  all_goals cases h <;> rfl

theorem pieces_fault_seen (s : Lexer) :
    ∀ f ∈ s.pieces.filterMap Piece.fault?, f.seen .folded = f := by
  induction s using pieces_induction with
  | nil s h => simp [pieces_nil h]
  | cons s c cs h ih =>
    intro f hf
    rw [pieces_cons h, List.filterMap_cons] at hf
    split at hf
    next => exact ih f hf
    next g hg =>
      obtain rfl | hf := List.mem_cons.mp hf
      · exact step_fault_seen hg
      · exact ih f hf

end Lexer

theorem ofLexing_fold (l : Lexing) (keep : Bool) :
    Parser.State.ofLexing l.fold keep = (Parser.State.ofLexing l keep).seen .folded := by
  cases keep <;> rfl

theorem parseWith_fold (options : Options) (source : String) :
    (parseWith options (View.folded.text source)).program =
        (parseWith options source).program.seen .folded ∧
      (parseWith options (View.folded.text source)).diagnostics =
        (parseWith options source).diagnostics.map (Diagnostic.seen .folded) := by
  have hread := Parser.State.readProgram_seen .folded
    (.ofLexing (lex source) options.keepComments)
  have hsource : (View.folded.text source).toList = source.toList.map Char.toLower := by
    simp [View.text, View.folded]
  have hfaults : (lex source).fold.faults = (lex source).faults := rfl
  have hquotes : ∀ f ∈ (lex source).faults, f.seen .folded = f :=
    (Lexer.start source.toList).pieces_fault_seen
  simp only [parseWith, lex_fold, ofLexing_fold, hread, hsource, hfaults, true_and]
  rw [← Diagnostic.report_fold, ← Diagnostic.order_fold _ _ hquotes]
  rfl

/-- The view folds capital letters to small ones; folding the other way is as good. -/
theorem View.folded_text_eq {a b : String} (h : a.toUpper = b.toUpper) :
    folded.text a = folded.text b := by
  have hfold : ∀ t : String, folded.text t = String.ofList (t.toUpper.toList.map Char.toLower) :=
    fun t => by simp [text, folded, String.toUpper, Function.comp_def]
  rw [hfold, hfold, h]

/-- Two sources that are the same in capital letters have the same tokens, trivia and faults, up
to the case of the texts in them. -/
theorem lex_ignores_case {a b : String} (h : a.toUpper = b.toUpper) :
    (lex a).fold = (lex b).fold := by
  rw [← lex_fold, ← lex_fold, View.folded_text_eq h]

/-- The case of the letters of a source has no influence on what is read: tokens, programs and
diagnostics are the same up to the case of the texts in them, and so is the outline. -/
theorem parse_ignores_case (options : Options) (a b : String) (h : a.toUpper = b.toUpper) :
    (lex a).tokens.map (Token.seen .folded) = (lex b).tokens.map (Token.seen .folded) ∧
      (lex a).trivia = (lex b).trivia ∧
      (lex a).comments.map (Comment.seen .folded) = (lex b).comments.map (Comment.seen .folded) ∧
      (lex a).faults = (lex b).faults ∧
      (parseWith options a).program.toSexp = (parseWith options b).program.toSexp ∧
      (parseWith options a).program.seen .folded = (parseWith options b).program.seen .folded ∧
      (parseWith options a).diagnostics.map (Diagnostic.seen .folded) =
        (parseWith options b).diagnostics.map (Diagnostic.seen .folded) := by
  have hlex := lex_ignores_case h
  simp only [Lexing.fold, Lexing.mk.injEq] at hlex
  obtain ⟨hpa, hda⟩ := parseWith_fold options a
  obtain ⟨hpb, hdb⟩ := parseWith_fold options b
  rw [View.folded_text_eq h] at hpa hda
  have hprogram := hpa.symm.trans hpb
  refine ⟨hlex.1, hlex.2.1, hlex.2.2.1, hlex.2.2.2, ?_, hprogram, hda.symm.trans hdb⟩
  rw [← Program.toSexp_seen (v := .folded) rfl, hprogram, Program.toSexp_seen rfl]

theorem parse_ignores_case_of_keywords :
    "if Total then print 1".toUpper = "IF TOTAL Then Print 1".toUpper ∧
      (parse "if Total then print 1").program.toSexp =
        (parse "IF TOTAL Then Print 1").program.toSexp := by
  have h : "if Total then print 1".toUpper = "IF TOTAL Then Print 1".toUpper := by
    rw [String.toUpper, String.toUpper, ← String.toList_inj, String.toList_map, String.toList_map]
    decide
  have hp := parse_ignores_case {} "if Total then print 1" "IF TOTAL Then Print 1" h
  exact ⟨h, hp.2.2.2.2.1⟩

end PickSyntax
