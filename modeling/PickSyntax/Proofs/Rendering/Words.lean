import Mathlib
import PickSyntax.Proofs.Lexing.Shapes
import PickSyntax.Proofs.Lexing.Tokens

/-!
# Words and the text that writes them

A word is what the grammar sees of a token: the kind, the text and the two layout flags.
It has no place in a source, so a list of words can be chosen freely and then written out,
with a line feed before a word that begins a line and a blank before any other word that
is to be spaced.

Reading the text back gives the same words and nothing else (`lex_write`), each at the bytes
where it was written (`lex_write_fromStart`). Three things could go wrong and are excluded by
`Follows`: a word could run on into the next one, a word could begin a line without anything
before it, and a star could open a comment.
-/
namespace PickSyntax

structure Word where
  kind : TokenKind
  text : String
  spaced : Bool
  lineStart : Bool
  deriving DecidableEq, Repr

/-- What the grammar sees of a token. -/
def Token.word (t : Token) : Word := ⟨t.kind, t.text, t.spaced, t.lineStart⟩

@[simp] theorem Token.word_kind (t : Token) : t.word.kind = t.kind := rfl
@[simp] theorem Token.word_text (t : Token) : t.word.text = t.text := rfl
@[simp] theorem Token.word_spaced (t : Token) : t.word.spaced = t.spaced := rfl
@[simp] theorem Token.word_lineStart (t : Token) : t.word.lineStart = t.lineStart := rfl

/-- The texts that read as a token of the kind. The word `REM` is left out: whether it is a
token depends on what follows. -/
inductive TokenKind.Admits : TokenKind → List Char → Prop
  | identifier {c : Char} {cs : List Char} : c.isAlpha = true → (∀ d ∈ cs, isWordChar d = true) →
      Keyword.ofWord? (c :: cs) = none → Admits .identifier (c :: cs)
  | keyword {k : Keyword} {c : Char} {cs : List Char} : c.isAlpha = true →
      (∀ d ∈ cs, isWordChar d = true) → Keyword.ofWord? (c :: cs) = some k → k ≠ .REM →
      Admits (.keyword k) (c :: cs)
  | digits {c : Char} {cs : List Char} : c.isDigit = true → (∀ d ∈ cs, d.isDigit = true) →
      Admits .number (c :: cs)
  | decimal {c : Char} {cs ds : List Char} : c.isDigit = true → (∀ d ∈ cs, d.isDigit = true) →
      (∀ d ∈ ds, d.isDigit = true) → Admits .number (c :: (cs ++ '.' :: ds))
  | fraction {d : Char} {ds : List Char} : d.isDigit = true → (∀ d ∈ ds, d.isDigit = true) →
      Admits .number ('.' :: d :: ds)
  | string {q : Quote} {value : List Char} : (∀ d ∈ value, Lexeme.isInside q d = true) →
      Admits (.string q) (q.char :: (value ++ [q.char]))
  | systemName {c : Char} {cs : List Char} : c.isAlpha = true →
      (∀ d ∈ cs, isSystemNameChar d = true) → Admits .systemName ('@' :: c :: cs)
  | symbol (y : Symbol) : Admits (.symbol y) [y.char]

namespace Word

/-- The text of the word reads as its kind says. -/
def Legible (w : Word) : Prop := w.kind.Admits w.text.toList

/-- What is written before the word. -/
def gap (w : Word) : List Char :=
  if w.lineStart then ['\n'] else if w.spaced then [' '] else []

/-- The word `v` may be written after `w`. -/
structure Follows (w v : Word) : Prop where
  /-- Without a blank between them, one of the two is a symbol that stands by itself. -/
  apart : v.spaced = false → (∃ y, v.kind = .symbol y) ∨ ∃ y, w.kind = .symbol y ∧ y ≠ .atSign
  line : v.lineStart = true → v.spaced = true
  star : v.kind = .symbol .star → w.kind.opensStatementList = false ∧ v.lineStart = false

end Word

/-- The words with the gap before each of them. -/
def ink (ws : List Word) : List Char := ws.flatMap fun w => w.gap ++ w.text.toList

/-- The words written out. Nothing is written before the first. -/
def write : List Word → List Char
  | [] => []
  | w :: ws => w.text.toList ++ ink ws

@[simp] theorem ink_nil : ink [] = [] := rfl

@[simp] theorem ink_cons (w : Word) (ws : List Word) :
    ink (w :: ws) = w.gap ++ (w.text.toList ++ ink ws) := by
  simp [ink]

@[simp] theorem ink_append (ws vs : List Word) : ink (ws ++ vs) = ink ws ++ ink vs := by
  simp [ink]

/-- The words of a text, whose first word has nothing before it. -/
def atStart : List Word → List Word
  | [] => []
  | w :: ws => { w with spaced := false } :: ws

theorem write_atStart (ws : List Word) : write (atStart ws) = write ws := by
  cases ws <;> rfl

/-- A word does not run on into this text. -/
def Parted (cs : List Char) : Prop := ∀ c ∈ cs.head?, isWordChar c = false

theorem isBlank_of_isAlpha {c : Char} (h : c.isAlpha = true) : isBlank c = false := by
  refine Bool.eq_false_iff.mpr fun hb => ?_
  simp only [isBlank, Bool.or_eq_true, beq_iff_eq] at hb
  rcases hb with ((rfl | rfl) | rfl) | rfl <;> revert h <;> decide

theorem isBlank_of_isDigit {c : Char} (h : c.isDigit = true) : isBlank c = false := by
  refine Bool.eq_false_iff.mpr fun hb => ?_
  simp only [isBlank, Bool.or_eq_true, beq_iff_eq] at hb
  rcases hb with ((rfl | rfl) | rfl) | rfl <;> revert h <;> decide

theorem isAlpha_eq_false_of_isDigit {c : Char} (h : c.isDigit = true) : c.isAlpha = false := by
  refine Bool.eq_false_iff.mpr fun ha => ?_
  simp only [Char.isDigit, Char.isAlpha, Char.isUpper, Char.isLower, Bool.and_eq_true,
    Bool.or_eq_true, decide_eq_true_eq, ge_iff_le, UInt32.le_iff_toNat_le] at h ha
  have : '9'.val.toNat = 57 := rfl
  have : 'A'.val.toNat = 65 := rfl
  have : 'a'.val.toNat = 97 := rfl
  omega

namespace CharClass
variable {c : Char}

theorem of_isAlpha (h : c.isAlpha = true) : of c = .letter := by
  have hn : c ≠ '\n' := by
    rintro rfl
    revert h
    decide
  simp [of, isBlank_of_isAlpha h, hn, h]

theorem of_isDigit (h : c.isDigit = true) : of c = .digit := by
  have hn : c ≠ '\n' := by
    rintro rfl
    revert h
    decide
  simp [of, isBlank_of_isDigit h, hn, isAlpha_eq_false_of_isDigit h, h]

theorem of_quote (q : Quote) : of q.char = .quote q := by
  cases q <;> decide

theorem of_symbol (y : Symbol) : of y.char = .symbol y := by
  cases y <;> decide

end CharClass

theorem isWordChar_symbol (y : Symbol) : isWordChar y.char = false := by
  cases y <;> decide

theorem isWordChar_of_isDigit {c : Char} (h : c.isDigit = true) : isWordChar c = true := by
  simp [isWordChar, Char.isAlphanum, h]

theorem isWordChar_of_isSystemNameChar {c : Char} (h : isSystemNameChar c = true) :
    isWordChar c = true := by
  simp only [isSystemNameChar, Bool.or_eq_true] at h
  rcases h with h | h <;> simp [isWordChar, h]

theorem Parted.stops {rest : List Char} {p : Char → Bool} (h : Parted rest)
    (hp : ∀ c, p c = true → isWordChar c = true) : ∀ d ∈ rest.head?, p d = false := by
  intro d hd
  refine Bool.eq_false_iff.mpr fun hpd => ?_
  have hw := hp d hpd
  rw [h d hd] at hw
  cases hw

section Scan
variable {k : TokenKind} {c : Char} {cs rest : List Char}

/-- The lexeme at the front of a text that begins with a word is that word. -/
theorem scan_of_admits (h : k.Admits (c :: cs))
    (hb : (∃ y, k = .symbol y ∧ y ≠ .atSign) ∨ Parted rest) :
    ∃ lk, Lexeme.scan c (cs ++ rest) = ⟨lk, c :: cs, rest⟩ ∧ (∀ q, lk ≠ .openString q) ∧
      Lexeme.Makes ⟨lk, c :: cs, rest⟩ k := by
  cases h with
  | identifier hc hcs hw =>
    have hr := (hb.resolve_left (by simp)).stops fun _ h => h
    refine ⟨.word, ?_, by simp, .identifier rfl hw⟩
    rw [Lexeme.scan, CharClass.of_isAlpha hc]
    exact Lexeme.run_stop hcs hr
  | keyword hc hcs hw _ =>
    have hr := (hb.resolve_left (by simp)).stops fun _ h => h
    refine ⟨.word, ?_, by simp, .keyword rfl hw⟩
    rw [Lexeme.scan, CharClass.of_isAlpha hc]
    exact Lexeme.run_stop hcs hr
  | digits hc hcs =>
    refine ⟨.number, ?_, by simp, .number rfl⟩
    rw [Lexeme.scan, CharClass.of_isDigit hc]
    have hr := hb.resolve_left (by simp)
    exact Lexeme.number_digits hcs fun d hd => ⟨hr.stops (fun _ => isWordChar_of_isDigit) d hd,
      fun he => absurd (hr d hd) (by rw [he]; decide)⟩
  | decimal hc hcs hds =>
    refine ⟨.number, ?_, by simp, .number rfl⟩
    rw [Lexeme.scan, CharClass.of_isDigit hc, List.append_assoc, List.cons_append]
    exact Lexeme.number_decimal hcs hds
      ((hb.resolve_left (by simp)).stops fun _ => isWordChar_of_isDigit)
  | @fraction d ds hd hds =>
    have hr := (hb.resolve_left (by simp)).stops fun _ => isWordChar_of_isDigit
    have hall : ∀ x ∈ d :: ds, x.isDigit = true := by simpa [hd] using hds
    refine ⟨.number, ?_, by simp, .number rfl⟩
    rw [Lexeme.scan, show CharClass.of '.' = .point by decide]
    simp only [Lexeme.point, List.cons_append, hd, if_true]
    exact Lexeme.run_stop hall hr
  | @string q value hv =>
    refine ⟨.string q, ?_, by simp, .string rfl⟩
    rw [Lexeme.scan, CharClass.of_quote, List.append_assoc, List.singleton_append]
    exact Lexeme.quoted_closed hv
  | @systemName d ds hd hds =>
    have hr := (hb.resolve_left (by simp)).stops fun _ => isWordChar_of_isSystemNameChar
    refine ⟨.systemName, ?_, by simp, .systemName rfl⟩
    rw [Lexeme.scan, show CharClass.of '@' = .symbol .atSign by decide]
    simp only [Lexeme.symbol, List.cons_append, hd, if_true, (Lexeme.takeWhile_stop hds hr).1,
      (Lexeme.takeWhile_stop hds hr).2]
  | symbol y =>
    refine ⟨.symbol y, ?_, by simp, .symbol rfl⟩
    rw [Lexeme.scan, CharClass.of_symbol, List.nil_append]
    refine Lexeme.symbol_single fun hy => ?_
    subst hy
    exact (hb.resolve_left (by simp)).stops fun _ hd => by simp [isWordChar, Char.isAlphanum, hd]

end Scan

namespace TokenKind.Admits
variable {k : TokenKind} {text : List Char}

/-- A text that reads as a token does not begin with a blank. -/
theorem head (h : k.Admits text) : ∃ c cs, text = c :: cs ∧ isBlank c = false := by
  cases h with
  | identifier hc => exact ⟨_, _, rfl, isBlank_of_isAlpha hc⟩
  | keyword hc => exact ⟨_, _, rfl, isBlank_of_isAlpha hc⟩
  | digits hc => exact ⟨_, _, rfl, isBlank_of_isDigit hc⟩
  | decimal hc => exact ⟨_, _, rfl, isBlank_of_isDigit hc⟩
  | fraction => exact ⟨_, _, rfl, by decide⟩
  | @string q => exact ⟨_, _, rfl, by cases q <;> decide⟩
  | systemName => exact ⟨_, _, rfl, by decide⟩
  | symbol y => exact ⟨_, _, rfl, by cases y <;> decide⟩

end TokenKind.Admits

namespace Lexer
variable {s : Lexer} {k : TokenKind} {c : Char} {cs rest : List Char}

/-- A lexeme that can become a token does, where no comment can open. -/
theorem step_emit {l : Lexeme} (h : l.Makes k) (hopen : ∀ q, l.kind ≠ .openString q)
    (hrem : k ≠ .keyword .REM) (hstar : k = .symbol .star → s.atStatement = false) :
    s.step l = s.emit k l := by
  unfold step
  cases h with
  | identifier hk hw => rw [hk, hw]
  | @keyword k hk hw =>
    rw [hk, hw]
    exact if_neg fun hc => hrem (by rw [hc.1])
  | @symbol y hk =>
    rw [hk]
    refine if_neg fun hc => ?_
    have := hstar (by rw [hc.1])
    rw [hc.2] at this
    cases this
  | openString hk => exact absurd hk (hopen _)
  | _ hk => rw [hk]

/-- Where no comment can open, the step over a word yields its token. -/
theorem step_admits (h : k.Admits (c :: cs))
    (hb : (∃ y, k = .symbol y ∧ y ≠ .atSign) ∨ Parted rest)
    (hstar : k = .symbol .star → s.atStatement = false) :
    ∃ l, l.text = c :: cs ∧ l.rest = rest ∧
      s.step (Lexeme.scan c (cs ++ rest)) = s.emit k l := by
  obtain ⟨lk, hscan, hclosed, hmakes⟩ := scan_of_admits h hb
  refine ⟨⟨lk, c :: cs, rest⟩, rfl, rfl, ?_⟩
  rw [hscan]
  refine step_emit hmakes hclosed (fun hk => ?_) hstar
  subst hk
  cases h
  contradiction

end Lexer

/-- The tokens are the words; no comment and no fault stands among them. -/
structure Lexing.Reads (l : Lexing) (ws : List Word) : Prop where
  words : l.tokens.map Token.word = ws
  comments : l.comments = []
  faults : l.faults = []

theorem Lexing.Reads.token {ps : List Piece} {ws : List Word} (h : (ofPieces ps).Reads ws)
    (t : Token) : (ofPieces (.token t :: ps)).Reads (t.word :: ws) where
  words := by
    rw [← h.words]
    rfl
  comments := h.comments
  faults := h.faults

theorem Lexing.Reads.trivias {ps : List Piece} {ws : List Word} (h : (ofPieces ps).Reads ws)
    (ts : List Trivia) : (ofPieces (ts.map Piece.trivia ++ ps)).Reads ws := by
  induction ts with
  | nil => exact h
  | cons t ts ih => exact ⟨ih.words, ih.comments, ih.faults⟩

theorem Lexing.tokens_trivias (ts : List Trivia) (ps : List Piece) :
    (ofPieces (ts.map Piece.trivia ++ ps)).tokens = (ofPieces ps).tokens := by
  induction ts with
  | nil => rfl
  | cons t ts ih => exact ih

/-- The tokens stand one behind the other after the byte, each with its gap before it. -/
def Standing : Nat → List Token → Prop
  | _, [] => True
  | start, t :: ts =>
    t.span = ⟨start + byteSize t.word.gap, start + byteSize t.word.gap + byteSize t.text.toList⟩ ∧
      Standing t.span.stop ts

/-- The tokens of a whole text, which has no gap before the first of them. -/
def FromStart : List Token → Prop
  | [] => True
  | t :: ts => t.span = ⟨0, byteSize t.text.toList⟩ ∧ Standing t.span.stop ts

theorem standing_append {start : Nat} {ts us : List Token} : Standing start (ts ++ us) ↔
    Standing start ts ∧ Standing (start + byteSize (ink (ts.map Token.word))) us := by
  induction ts generalizing start with
  | nil => simp [Standing]
  | cons t ts ih =>
    simp only [List.cons_append, Standing, ih, and_assoc]
    refine and_congr_right fun hspan => ?_
    simp [hspan, Nat.add_assoc]

/-- What follows a word parts it from the rest, if no symbol does. -/
theorem parted_ink {w : Word} {ws : List Word} (hw : ∀ v ∈ ws, v.Legible)
    (hc : List.IsChain Word.Follows (w :: ws)) :
    (∃ y, w.kind = .symbol y ∧ y ≠ .atSign) ∨ Parted (ink ws) := by
  cases ws with
  | nil => exact .inr (by simp [Parted])
  | cons v vs =>
    have hf : w.Follows v := (List.isChain_cons_cons.mp hc).1
    by_cases hs : v.spaced = true
    · refine .inr ?_
      cases hl : v.lineStart <;> simp [Parted, Word.gap, hs, hl] <;> decide
    · have hs : v.spaced = false := by simpa using hs
      have hl : v.lineStart = false := Bool.eq_false_iff.mpr fun hl => by
        rw [hf.line hl] at hs
        cases hs
      refine (hf.apart hs).symm.imp id fun hy => ?_
      obtain ⟨y, hy⟩ := hy
      have hv := hw v (by simp)
      rw [Word.Legible, hy] at hv
      have hgap : v.gap = [] := by simp [Word.gap, hs, hl]
      cases ht : v.text.toList with
      | nil =>
        rw [ht] at hv
        cases hv
      | cons c cs =>
        rw [ht] at hv
        cases hv
        simp [Parted, hgap, ht, isWordChar_symbol]

namespace Lexer
variable {s : Lexer} {w : Word} {ws : List Word} {p : Token}

/-- The lexer just after the token `p`. -/
structure Past (s : Lexer) (p : Token) : Prop where
  previous : s.previous = some p
  offset : s.offset = p.span.stop
  lineStart : s.lineStart = false

/-- The word next in the text becomes a token. -/
theorem pieces_word (hw : w.Legible) (hr : s.rest = w.text.toList ++ ink ws)
    (hl : s.lineStart = w.lineStart) (hs : ∀ l, (s.tokenOf w.kind l).spaced = w.spaced)
    (hb : (∃ y, w.kind = .symbol y ∧ y ≠ .atSign) ∨ Parted (ink ws))
    (hstar : w.kind = .symbol .star → s.atStatement = false) :
    ∃ (t : Token) (s' : Lexer), t.word = w ∧ t.span = s.spanOf w.text.toList ∧ s'.Past t ∧
      s'.rest = ink ws ∧ s.pieces = .token t :: s'.pieces := by
  obtain ⟨c, cs, ht, -⟩ := hw.head
  rw [Word.Legible, ht] at hw
  rw [ht, List.cons_append] at hr
  obtain ⟨l, hltext, hlrest, hstep⟩ := step_admits hw hb hstar
  refine ⟨s.tokenOf w.kind l, s.accept (s.tokenOf w.kind l) l, ?_, ?_, ⟨rfl, rfl, rfl⟩, hlrest, ?_⟩
  · have htext : w.text = String.ofList (c :: cs) := by rw [← ht, String.ofList_toList]
    simp only [Token.word, hs]
    simp only [tokenOf, hltext, hl, ← htext]
  · simp only [tokenOf, hltext, ht]
  · rw [pieces_cons hr, hstep]
    rfl

/-- The gap before a word. -/
theorem pieces_gap {rest : List Char} (hp : s.Past p) (hline : w.lineStart = true → w.spaced = true)
    (hr : s.rest = w.gap ++ rest) (hrest : ∀ c ∈ rest.head?, isBlank c = false) :
    ∃ (s' : Lexer) (ts : List Trivia), s'.rest = rest ∧ s'.previous = some p ∧
      s'.lineStart = w.lineStart ∧ (p.span.stop != s'.offset) = w.spaced ∧
      s'.offset = p.span.stop + byteSize w.gap ∧ s.pieces = ts.map Piece.trivia ++ s'.pieces := by
  cases hl : w.lineStart with
  | true =>
    have hspaced := hline hl
    have hgap : w.gap = ['\n'] := by simp [Word.gap, hl]
    rw [hgap, List.singleton_append] at hr
    refine ⟨{ s.skip (Lexeme.single .newline '\n' rest) with lineStart := true },
      [⟨.newline, s.spanOf ['\n']⟩], rfl, hp.previous, rfl, ?_, ?_, ?_⟩
    · have := Char.utf8Size_pos '\n'
      simp [skip, Lexeme.single, hp.offset, hspaced]
      omega
    · simp [skip, Lexeme.single, hp.offset, hgap]
    · rw [pieces_cons hr, show Lexeme.scan '\n' rest = Lexeme.single .newline '\n' rest from rfl]
      rfl
  | false =>
    cases hs : w.spaced with
    | true =>
      have hgap : w.gap = [' '] := by simp [Word.gap, hl, hs]
      rw [hgap, List.singleton_append] at hr
      have hscan : Lexeme.scan ' ' rest = ⟨.blank, [' '], rest⟩ :=
        @Lexeme.run_stop _ _ _ [] _ (by simp) hrest
      refine ⟨s.skip ⟨.blank, [' '], rest⟩, [⟨.blank, s.spanOf [' ']⟩], rfl, hp.previous,
        hp.lineStart, ?_, ?_, ?_⟩
      · have := Char.utf8Size_pos ' '
        simp [skip, hp.offset]
        omega
      · simp [skip, hp.offset, hgap]
      · rw [pieces_cons hr, hscan]
        rfl
    | false =>
      have hgap : w.gap = [] := by simp [Word.gap, hl, hs]
      rw [hgap, List.nil_append] at hr
      exact ⟨s, [], hr, hp.previous, hp.lineStart, by simp [hp.offset], by simp [hp.offset, hgap], rfl⟩

theorem pieces_ink (hp : s.Past p) (hr : s.rest = ink ws) (hw : ∀ v ∈ ws, v.Legible)
    (hc : List.IsChain Word.Follows (p.word :: ws)) : (Lexing.ofPieces s.pieces).Reads ws ∧
      Standing p.span.stop (Lexing.ofPieces s.pieces).tokens := by
  induction ws generalizing s p with
  | nil =>
    rw [pieces_nil hr]
    exact ⟨⟨rfl, rfl, rfl⟩, trivial⟩
  | cons w ws ih =>
    obtain ⟨hf, hc⟩ := List.isChain_cons_cons.mp hc
    have hlegible := hw w (by simp)
    obtain ⟨c, cs, ht, hblank⟩ := hlegible.head
    rw [ink_cons] at hr
    obtain ⟨s₁, gap, hr₁, hprev, hl, hs, hoffset, hgap⟩ :=
      pieces_gap hp hf.line hr (by simp [ht, hblank])
    have hstar : w.kind = .symbol .star → s₁.atStatement = false := by
      intro hk
      obtain ⟨hopens, hline⟩ := hf.star hk
      simp only [atStatement, hprev, hl, hline, Bool.or_false]
      exact hopens
    obtain ⟨t, s₂, rfl, hspan, hp₂, hr₂, hpieces⟩ := pieces_word hlegible hr₁ hl
      (fun _ => by simpa [tokenOf, hprev] using hs) (parted_ink (fun v hv => hw v (by simp [hv])) hc) hstar
    obtain ⟨hreads, hstanding⟩ := ih hp₂ hr₂ (fun v hv => hw v (by simp [hv])) hc
    rw [hgap, hpieces]
    refine ⟨.trivias (hreads.token t) gap, ?_⟩
    rw [Lexing.tokens_trivias]
    exact ⟨by rw [hspan, spanOf, hoffset, Token.word_text], hstanding⟩

end Lexer

/-- What can be written and read back: the first word begins the text and is no star, and every
other word may follow the one before it. -/
structure Fluent (ws : List Word) : Prop where
  legible : ∀ w ∈ ws, w.Legible
  follows : List.IsChain Word.Follows ws
  first : ∀ w ∈ ws.head?, w.lineStart = true ∧ w.spaced = false ∧ w.kind ≠ .symbol .star

/-- A text of words reads as those words, from its first byte on. -/
theorem lex_write_fromStart {ws : List Word} (h : Fluent ws) :
    (lex (String.ofList (write ws))).Reads ws ∧ FromStart (lex (String.ofList (write ws))).tokens := by
  cases ws with
  | nil =>
    rw [lex, Lexer.pieces_nil (by simp [Lexer.start, write])]
    exact ⟨⟨rfl, rfl, rfl⟩, trivial⟩
  | cons w ws =>
    obtain ⟨hline, hspaced, hstar⟩ := h.first w rfl
    have hw : ∀ v ∈ ws, v.Legible := fun v hv => h.legible v (by simp [hv])
    have hr : (Lexer.start (write (w :: ws))).rest = w.text.toList ++ ink ws := rfl
    obtain ⟨t, s, rfl, hspan, hp, hrest, hpieces⟩ := Lexer.pieces_word (h.legible w (by simp)) hr
      hline.symm (fun _ => by simp [Lexer.tokenOf, Lexer.start, hspaced]) (parted_ink hw h.follows)
      (fun hk => absurd hk hstar)
    obtain ⟨hreads, hstanding⟩ := Lexer.pieces_ink hp hrest hw h.follows
    rw [lex, String.toList_ofList, hpieces]
    exact ⟨hreads.token t, by simpa [Lexer.spanOf, Lexer.start] using hspan, hstanding⟩

theorem lex_write {ws : List Word} (h : Fluent ws) : (lex (String.ofList (write ws))).Reads ws :=
  (lex_write_fromStart h).1

end PickSyntax
