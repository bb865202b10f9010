import PickSyntax.Proofs.Joined.Source
import PickSyntax.Proofs.Rendering.Words
import PickSyntax.Proofs.View.Program

/-!
# A source written anew from its tokens

Comments, continuations, stray characters and the length of blanks say nothing. The tokens of
a source are written out with the least that keeps them apart: a line feed before a token that
begins a line, a blank before any other that is spaced, and nothing between two that touch.
Read again they are the same tokens, and the same program.

What stands behind a lexeme changes by that. A lexeme that becomes a token stays as it is
before a line feed, before a blank and before what it was read before (`Replaces`); only an
open string would take a blank, and behind it a line ends.
-/
namespace PickSyntax

/-- The tokens of a source written out. -/
def respaced (source : String) : String :=
  String.ofList (write ((lex source).tokens.map Token.word))

namespace Lexeme

/-- What may stand behind a lexeme in place of what it was read before. -/
inductive Replaces (l : Lexeme) : List Char → Prop
  | nothing : Replaces l []
  | lineFeed {ds : List Char} : Replaces l ('\n' :: ds)
  | blank {ds : List Char} : (∀ q, l.kind ≠ .openString q) → Replaces l (' ' :: ds)
  | same {ds : List Char} : ds.head? = l.rest.head? → Replaces l ds

section
variable {l : Lexeme} {c : Char} {cs ds : List Char} {k : TokenKind}

/-- What no blank and no line feed has, the new text does not begin with, if the old one did
not. -/
theorem Replaces.head {P : Char → Prop} (h : l.Replaces ds) (hline : P '\n') (hblank : P ' ')
    (hrest : ∀ d ∈ l.rest.head?, P d) : ∀ d ∈ ds.head?, P d := by
  cases h with
  | nothing => simp
  | lineFeed => simpa using hline
  | blank => simpa using hblank
  | same hhead => rwa [hhead]

theorem run_replace {lk : LexemeKind} {p : Char → Bool} (hline : p '\n' = false)
    (hblank : p ' ' = false) (h : (run lk p c cs).Replaces ds) :
    run lk p c (cs.takeWhile p ++ ds) = { run lk p c cs with rest := ds } :=
  run_stop (of_mem_takeWhile p cs) (h.head hline hblank (dropWhile_stop p cs))

theorem number_replace (h : (number c cs).Replaces ds) :
    number c ((number c cs).text.tail ++ ds) = { number c cs with rest := ds } := by
  have hdigits := of_mem_takeWhile Char.isDigit
  by_cases hpoint : ∀ d ∈ (cs.dropWhile Char.isDigit).head?, d ≠ '.'
  · rw [number_run hpoint] at h ⊢
    exact number_digits (hdigits cs) (h.head (by decide) (by decide) fun d hd =>
      ⟨dropWhile_stop Char.isDigit cs d hd, hpoint d hd⟩)
  · obtain ⟨es, hes⟩ : ∃ es, cs.dropWhile Char.isDigit = '.' :: es := by
      simpa [List.head?_eq_some_iff] using hpoint
    rw [number_point hes] at h ⊢
    have hstop := h.head (P := fun d => d.isDigit = false) (by decide) (by decide)
      (dropWhile_stop Char.isDigit es)
    simpa using number_decimal (hdigits cs) (hdigits es) hstop

theorem point_replace (h : (point c cs).Makes k) (hr : (point c cs).Replaces ds) :
    point c ((point c cs).text.tail ++ ds) = { point c cs with rest := ds } := by
  by_cases hdigit : ∀ d ∈ cs.head?, d.isDigit = false
  · rw [point_single hdigit] at h
    cases h <;> contradiction
  · obtain ⟨e, es, rfl, he⟩ : ∃ e es, cs = e :: es ∧ e.isDigit = true := by
      cases cs <;> simp_all
    rw [point_digit he] at hr ⊢
    have hrun := run_replace (by decide) (by decide) hr
    have htext :
        (run .number Char.isDigit c (e :: es)).text.tail = e :: es.takeWhile Char.isDigit := by
      simp [run, he]
    rw [htext, List.cons_append, point_digit he]
    rwa [List.takeWhile_cons_of_pos he] at hrun

theorem symbol_replace {y : Symbol} (h : (symbol y c cs).Replaces ds) :
    symbol y c ((symbol y c cs).text.tail ++ ds) = { symbol y c cs with rest := ds } := by
  by_cases hname : y = .atSign → ∀ d ∈ cs.head?, d.isAlpha = false
  · rw [symbol_single hname] at h ⊢
    exact symbol_single fun hy => h.head (P := fun d => d.isAlpha = false) (by decide) (by decide)
      (hname hy)
  · obtain ⟨rfl, e, es, rfl, he⟩ : y = .atSign ∧ ∃ e es, cs = e :: es ∧ e.isAlpha = true := by
      cases cs <;> simp_all
    rw [symbol_name he] at h ⊢
    have hstop := h.head (P := fun d => isSystemNameChar d = false) (by decide) (by decide)
      (dropWhile_stop isSystemNameChar es)
    obtain ⟨htake, hdrop⟩ := takeWhile_stop (of_mem_takeWhile isSystemNameChar es) hstop
    change symbol .atSign c (e :: (es.takeWhile isSystemNameChar ++ ds)) = _
    rw [symbol_name he, htake, hdrop]

/-- Behind an open string there is a line feed or nothing. -/
theorem Replaces.head_open {q : Quote} (h : l.Replaces ds) (hl : l.kind = .openString q)
    (hrest : ∀ d ∈ l.rest.head?, d = '\n') : ∀ d ∈ ds.head?, d = '\n' := by
  cases h with
  | nothing => simp
  | lineFeed => simp
  | blank hclosed => exact absurd hl (hclosed q)
  | same hhead => rwa [hhead]

/-- An open string goes to the end of its line. -/
theorem quoted_open_rest {q q' : Quote} (h : (quoted q c cs).kind = .openString q') :
    ∀ d ∈ (quoted q c cs).rest.head?, d = '\n' := by
  by_cases hopen : ∀ d ∈ (cs.dropWhile (isInside q)).head?, d ≠ q.char
  · rw [quoted_unclosed hopen]
    intro d hd
    simpa [isInside, hopen d hd] using dropWhile_stop (isInside q) cs d hd
  · obtain ⟨es, hes⟩ := exists_delimiter hopen
    rw [hes, quoted_closed (of_mem_takeWhile (isInside q) cs)] at h
    cases h

theorem scan_open_rest {q : Quote} (h : (scan c cs).kind = .openString q) :
    ∀ d ∈ (scan c cs).rest.head?, d = '\n' := by
  have hyields := scan_yields c cs
  rw [h] at hyields
  generalize hclass : CharClass.of c = kind at hyields
  cases hyields
  simp only [scan, hclass] at h ⊢
  exact quoted_open_rest h

theorem quoted_replace_open {q : Quote} (h : (quoted q c cs).Makes k)
    (hr : (quoted q c cs).Replaces ds)
    (hopen : ∀ d ∈ (cs.dropWhile (isInside q)).head?, d ≠ q.char) :
    quoted q c (cs.takeWhile (isInside q) ++ ds) = { quoted q c cs with rest := ds } := by
  have hquoted := quoted_unclosed (c := c) hopen
  have hkind : (quoted q c cs).kind = .openString q := by
    rw [hquoted] at h ⊢
    split at h
    next => cases h <;> contradiction
    next hreturn => exact if_neg hreturn
  have hhead := hr.head_open hkind (quoted_open_rest hkind)
  have hstop : ∀ d ∈ ds.head?, isInside q d = false ∧ d ≠ q.char := by
    intro d hd
    rw [hhead d hd]
    cases q <;> decide
  obtain ⟨htake, hdrop⟩ := takeWhile_stop (of_mem_takeWhile (isInside q) cs)
    fun d hd => (hstop d hd).1
  rw [hquoted, quoted_unclosed (by rw [hdrop]; exact fun d hd => (hstop d hd).2), htake, hdrop]

theorem quoted_replace {q : Quote} (h : (quoted q c cs).Makes k)
    (hr : (quoted q c cs).Replaces ds) :
    quoted q c ((quoted q c cs).text.tail ++ ds) = { quoted q c cs with rest := ds } := by
  by_cases hopen : ∀ d ∈ (cs.dropWhile (isInside q)).head?, d ≠ q.char
  · have htext : (quoted q c cs).text.tail = cs.takeWhile (isInside q) := by
      rw [quoted_unclosed hopen]
      rfl
    rw [htext]
    exact quoted_replace_open h hr hopen
  · obtain ⟨es, hes⟩ := exists_delimiter hopen
    have hclosed : quoted q c (cs.takeWhile (isInside q) ++ q.char :: es) = _ :=
      quoted_closed (of_mem_takeWhile (isInside q) cs)
    rw [← hes] at hclosed
    rw [hclosed]
    simpa using quoted_closed (of_mem_takeWhile (isInside q) cs)

/-- A lexeme that becomes a token is the same before a text that replaces what it was read
before. -/
theorem scan_replace (h : (scan c cs).Makes k) (hr : (scan c cs).Replaces ds) :
    scan c ((scan c cs).text.tail ++ ds) = { scan c cs with rest := ds } := by
  cases hc : CharClass.of c <;> simp only [scan, hc] at h hr ⊢
  case letter => exact run_replace (by decide) (by decide) hr
  case digit => exact number_replace hr
  case point => exact point_replace h hr
  case quote q => exact quoted_replace h hr
  case symbol y => exact symbol_replace hr
  case ampersand =>
    unfold ampersand at h
    split at h <;> cases h <;> contradiction
  all_goals cases h <;> contradiction

/-- What a lexeme can become does not depend on what follows. -/
theorem Makes.before (h : l.Makes k) (ds : List Char) : Makes { l with rest := ds } k := by
  cases h with
  | identifier hk hw => exact .identifier hk hw
  | keyword hk hw => exact .keyword hk hw
  | symbol hk => exact .symbol hk
  | systemName hk => exact .systemName hk
  | number hk => exact .number hk
  | string hk => exact .string hk
  | openString hk => exact .openString hk

/-- A lexeme that becomes a token does not begin with a blank. -/
theorem Makes.not_blank (h : (scan c cs).Makes k) : isBlank c = false := by
  refine Bool.eq_false_iff.mpr fun hb => ?_
  have hscan : scan c cs = run .blank isBlank c cs := by simp [scan, CharClass.of, hb]
  rw [hscan] at h
  cases h <;> contradiction

end
end Lexeme

namespace Lexer
variable {s S : Lexer} {t p : Token} {ws : List Word} {c : Char} {cs : List Char} {k : TokenKind}

/-- A token that is not spaced stands right behind the last one. -/
theorem head_unspaced (hp : s.Past p) :
    ∀ t ∈ s.tokens.head?, t.spaced = false → t.text.toList.head? = s.rest.head? := by
  cases hr : s.rest with
  | nil => simp [tokens_nil hr]
  | cons c cs =>
    cases ht : (s.step (Lexeme.scan c cs)).1.token? with
    | none =>
      rw [tokens_other hr ht]
      intro t hhead hspaced
      have hlt := s.step_offset_lt c cs
      have hapart := head_spaced (Nat.lt_of_le_of_lt (Nat.zero_le _) hlt) (fun u hu => by
        cases ((step_other ht).2.trans hp.previous).symm.trans hu
        exact hp.offset ▸ hlt) t hhead
      rw [hspaced] at hapart
      cases hapart
    | some t =>
      rw [tokens_token hr ht]
      rintro _ ⟨⟩ -
      obtain ⟨k, -, rfl, -⟩ := Lexer.step_token ht
      simp [tokenOf, Lexeme.scan_text_head]

/-- What is written behind a lexeme replaces what it was read before. -/
theorem replaces_ink {l : Lexeme} (hp : s.Past p) (hr : s.rest = l.rest)
    (hopen : ∀ q, l.kind = .openString q → ∀ d ∈ l.rest.head?, d = '\n') :
    l.Replaces (ink (s.tokens.map Token.word)) := by
  have hunspaced := head_unspaced hp
  cases htokens : s.tokens with
  | nil => exact .nothing
  | cons t ts =>
    rw [htokens] at hunspaced
    obtain ⟨c, cs, hcs⟩ : ∃ c cs, s.rest = c :: cs := by
      refine List.exists_cons_of_ne_nil fun hnil => ?_
      rw [tokens_nil hnil] at htokens
      cases htokens
    rw [List.map_cons, ink_cons, Word.gap, Token.word_lineStart, Token.word_spaced]
    by_cases hl : t.lineStart = true
    · rw [if_pos hl]
      exact .lineFeed
    rw [if_neg hl]
    by_cases hs : t.spaced = true
    · rw [if_pos hs]
      refine .blank fun q hq => hl ?_
      have hline := hopen q hq c (by rw [← hr, hcs]; rfl)
      exact head_lineFeed (hline ▸ hcs) t (by rw [htokens]; rfl)
    · rw [if_neg hs]
      have hhead := hunspaced t rfl (by simpa using hs)
      refine .same ?_
      rw [List.nil_append, List.head?_append, Token.word_text, hhead, hr, ← hr, hcs]
      rfl

theorem step_makes {l : Lexeme} (h : l.Makes k) (hrem : k ≠ .keyword .REM)
    (hstar : k = .symbol .star → s.atStatement = false) :
    (s.step l).1.token? = some (s.tokenOf k l) ∧ (s.step l).2 = s.accept (s.tokenOf k l) l := by
  by_cases hopen : ∀ q, l.kind ≠ .openString q
  · rw [step_emit h hopen hrem hstar]
    exact ⟨rfl, rfl⟩
  · obtain ⟨q, hq⟩ := not_forall_not.mp hopen
    have hk : k = .string q := by
      cases h <;> simp_all
    rw [hk, step, hq]
    exact ⟨rfl, rfl⟩

/-- A star is a token only where no statement may begin. -/
theorem atStatement_of_star {l : Lexeme} (ht : (s.step l).1.token? = some t)
    (hk : t.kind = .symbol .star) : s.atStatement = false := by
  obtain ⟨k, hmakes, rfl, -⟩ := Lexer.step_token ht
  have hkind : l.kind = .symbol .star := by
    change k = .symbol .star at hk
    subst hk
    cases hmakes
    assumption
  refine Bool.eq_false_iff.mpr fun hstatement => ?_
  rw [step, hkind] at ht
  simp [hstatement, remark, Piece.token?] at ht

/-- A token is read from its text again, where a statement may begin at the same places. -/
theorem tokens_again {N : Lexer}
    (ht : (s.step (Lexeme.scan c cs)).1.token? = some t) (hrem : t.kind ≠ .keyword .REM)
    (hat : N.atStatement = s.atStatement)
    (hN : N.rest = t.text.toList ++ ink ((s.step (Lexeme.scan c cs)).2.tokens.map Token.word)) :
    ∃ (l : Lexeme) (N' : Lexer), N.tokens = N.tokenOf t.kind l :: N'.tokens ∧
      String.ofList l.text = t.text ∧ N'.Past (N.tokenOf t.kind l) ∧
      N'.rest = ink ((s.step (Lexeme.scan c cs)).2.tokens.map Token.word) := by
  have hstar := atStatement_of_star ht
  obtain ⟨k, hmakes, rfl, hnext⟩ := Lexer.step_token ht
  generalize hds : ink ((s.step (Lexeme.scan c cs)).2.tokens.map Token.word) = ds at hN ⊢
  have hpast : (s.step (Lexeme.scan c cs)).2.Past (s.tokenOf k (Lexeme.scan c cs)) := by
    rw [hnext]
    exact ⟨rfl, rfl, rfl⟩
  have hreplaces : (Lexeme.scan c cs).Replaces ds :=
    hds ▸ replaces_ink hpast (by rw [hnext]; rfl) fun q => Lexeme.scan_open_rest
  have hscan := Lexeme.scan_replace hmakes hreplaces
  obtain ⟨es, htext⟩ : ∃ es, (Lexeme.scan c cs).text = c :: es :=
    List.head?_eq_some_iff.mp (Lexeme.scan_text_head c cs)
  have hrest : N.rest = c :: ((Lexeme.scan c cs).text.tail ++ ds) := by
    rw [hN]
    simp [tokenOf, htext]
  obtain ⟨htoken, hafter⟩ := step_makes (s := N) (hmakes.before ds) hrem
    fun hk => hat.trans (hstar hk)
  rw [← hscan] at htoken hafter
  refine ⟨_, _, tokens_token hrest htoken, ?_, ?_, ?_⟩
  · rw [hscan]
    rfl
  · rw [hafter]
    exact ⟨rfl, rfl, rfl⟩
  · rw [hafter, hscan]
    rfl

/-- Pieces that are no tokens do not count. -/
theorem tokens_trivia {s' : Lexer} {ts : List Trivia}
    (h : s.pieces = ts.map Piece.trivia ++ s'.pieces) : s.tokens = s'.tokens := by
  have hnone : (ts.map Piece.trivia).filterMap Piece.token? = [] := by
    simp [List.filterMap_eq_nil_iff, Piece.token?]
  rw [tokens, h, List.filterMap_append, hnone]
  rfl

/-- Behind a token, the text of the tokens that follow reads as those tokens. -/
theorem tokens_ink {S N : Lexer} {p q : Token} (hp : S.previous = some p)
    (hlast : S.PastLast) (hq : N.Past q) (hk : q.kind = p.kind)
    (hN : N.rest = ink (S.tokens.map Token.word)) (hrem : ∀ t ∈ S.tokens, t.kind ≠ .keyword .REM) :
    N.tokens.map Token.word = S.tokens.map Token.word := by
  induction S using pieces_induction generalizing p q N with
  | nil S hr =>
    rw [tokens_nil hr] at hN ⊢
    rw [tokens_nil hN]
  | cons S c cs hr ih =>
    have hspaced := hlast.spaced (hp ▸ Option.some_ne_none p)
    cases ht : (S.step (Lexeme.scan c cs)).1.token? with
    | none =>
      rw [tokens_other hr ht] at hN hrem ⊢
      exact ih ((step_other ht).2.trans hp) (hlast.step c cs) hq hk hN hrem
    | some t =>
      rw [tokens_token hr ht] at hN hrem hspaced ⊢
      rw [List.map_cons, ink_cons] at hN
      obtain ⟨k, hmakes, htoken, hnext⟩ := Lexer.step_token ht
      have hstart : t.lineStart = S.lineStart := by
        rw [htoken]
        rfl
      have hseparate := List.forall_mem_cons.mp hspaced |>.1
      have hblank : ∀ d ∈ (t.word.text.toList ++
          ink ((S.step (Lexeme.scan c cs)).2.tokens.map Token.word)).head?, isBlank d = false := by
        rw [Token.word_text, htoken, tokenOf, String.toList_ofList, List.head?_append,
          Lexeme.scan_text_head]
        rintro _ ⟨⟩
        exact hmakes.not_blank
      obtain ⟨N₁, gap, hr₁, hprevious, hline₁, hspaced₁, -, hgap⟩ :=
        pieces_gap hq hseparate hN hblank
      have hat : N₁.atStatement = S.atStatement := by
        simp only [atStatement, hprevious, hp, hk, hline₁, Token.word_lineStart, hstart]
      obtain ⟨l, N₂, htokens, htext, hpast, hr₂⟩ :=
        tokens_again ht (hrem t (List.mem_cons_self ..)) hat hr₁
      have hword : (N₁.tokenOf t.kind l).word = t.word := by
        simp [Token.word, tokenOf, htext, hprevious, hspaced₁, hline₁]
      have hthen := ih (p := t) (by rw [hnext]; rfl) (hlast.step c cs) hpast rfl hr₂
        fun u hu => hrem u (List.mem_cons_of_mem _ hu)
      rw [tokens_trivia hgap, htokens, List.map_cons, List.map_cons, hword, hthen]

/-- The same from the beginning, where nothing stands before the first token. -/
theorem tokens_write {S N : Lexer} (hS : S.previous = none) (hline : S.lineStart = true)
    (hN : N.previous = none) (hoffset : N.offset = 0) (hlineN : N.lineStart = true)
    (hrest : N.rest = write (S.tokens.map Token.word))
    (hrem : ∀ t ∈ S.tokens, t.kind ≠ .keyword .REM) :
    N.tokens.map Token.word = atStart (S.tokens.map Token.word) := by
  induction S using pieces_induction with
  | nil S hr =>
    rw [tokens_nil hr] at hrest ⊢
    rw [tokens_nil hrest]
    rfl
  | cons S c cs hr ih =>
    cases ht : (S.step (Lexeme.scan c cs)).1.token? with
    | none =>
      rw [tokens_other hr ht] at hrest hrem ⊢
      obtain ⟨hl, hp⟩ := step_other ht
      exact ih (hp.trans hS) (hl hline) hrest hrem
    | some t =>
      rw [tokens_token hr ht] at hrest hrem ⊢
      obtain ⟨k, -, htoken, hnext⟩ := Lexer.step_token ht
      have hat : N.atStatement = S.atStatement := by
        rw [atStatement, atStatement, hN, hS]
      obtain ⟨l, N', htokens, htext, hpast, hr'⟩ :=
        tokens_again ht (hrem t (List.mem_cons_self ..)) hat hrest
      have hword : (N.tokenOf t.kind l).word = { t.word with spaced := false } := by
        have hstart : t.lineStart = true := by
          rw [htoken]
          exact hline
        simp [Token.word, tokenOf, htext, hN, hoffset, hlineN, hstart]
      have hthen := tokens_ink (S := (S.step (Lexeme.scan c cs)).2) (p := t) (by rw [hnext]; rfl)
        ((PastLast.of_none hS).step c cs) hpast rfl hr'
        fun u hu => hrem u (List.mem_cons_of_mem _ hu)
      rw [htokens, List.map_cons, List.map_cons, hword, hthen]
      rfl

end Lexer

/-- A source written anew has the same words. -/
theorem lex_respaced {source : String} (h : ∀ t ∈ (lex source).tokens, t.kind ≠ .keyword .REM) :
    (lex (respaced source)).tokens.map Token.word =
      atStart ((lex source).tokens.map Token.word) := by
  have hrest : (Lexer.start (respaced source).toList).rest =
      write ((lex source).tokens.map Token.word) := String.toList_ofList
  exact Lexer.tokens_write (S := Lexer.start source.toList) rfl rfl rfl rfl rfl hrest h

/-- Tokens with the same words are the same but for their places. -/
theorem alike_of_words {ts us : List Token} (h : us.map Token.word = ts.map Token.word) :
    List.Forall₂ Token.Alike us ts := by
  induction us generalizing ts with
  | nil =>
    rw [List.map_eq_nil_iff.mp h.symm]
    exact .nil
  | cons u us ih =>
    obtain ⟨t, ts, rfl, hword, hrest⟩ := List.map_eq_cons_iff.mp h.symm
    simp only [Token.word, Word.mk.injEq] at hword
    obtain ⟨hk, ht, hs, hl⟩ := hword
    exact .cons ⟨hk.symm, ht.symm, hs.symm, hl.symm⟩ (ih hrest.symm)

namespace Grammar
open PickSyntax.Parser

/-- What stands before the first token does not matter. -/
theorem readProgram_of_tail {t u : Token} (ts : List Token) (cs : List Comment)
    (hk : t.kind = u.kind) (ht : t.text = u.text) (hs : t.span = u.span) :
    (State.start (u :: ts) cs).readProgram.1 = (State.start (t :: ts) cs).readProgram.1 := by
  have hrest : Shifted 0 (t :: ts) (u :: ts) := by
    refine .cons ⟨hk, ht, by rw [hs]; rfl⟩ nofun nofun ?_
    have hsame : (Seam.shift 0 (u :: ts)).Aligned true ts (ts ++ (Seam.shift 0 (u :: ts)).tail) :=
      Seam.aligned_append rfl (by simp [Seam.shift])
    rwa [show (Seam.shift 0 (u :: ts)).tail = [] from rfl, List.append_nil] at hsame
  obtain ⟨is, s', hs', -, -⟩ := programLoop_ends [] (State.start (t :: ts) cs)
  obtain ⟨S', hS', -⟩ := programLoop_shifted (n := 0) (s := State.start (t :: ts) cs)
    (S := State.start (u :: ts) cs) [] hrest rfl rfl
    (relocate_id_comments cs).symm rfl hs'
  rw [readProgram_of_some hs', readProgram_of_some hS']
  exact congrArg Program.mk (relocate_id_items is)

/-- Tokens that are the same words but for what stands before the first are read as the same
program. -/
theorem readProgram_of_words {ts us : List Token} (cs ds : List Comment)
    (h : us.map Token.word = atStart (ts.map Token.word)) :
    (State.start us ds).readProgram.1.seen .unplaced =
      (State.start ts cs).readProgram.1.seen .unplaced := by
  cases ts with
  | nil =>
    rw [List.map_eq_nil_iff.mp h]
    exact (readProgram_of_alike ds cs .nil).1
  | cons t ts =>
    rw [← readProgram_of_tail (t := t) (u := { t with spaced := false }) ts cs rfl rfl rfl]
    refine (readProgram_of_alike ds cs (alike_of_words ?_)).1
    exact h

end Grammar

/-- What separates tokens does not matter beyond that it does. A source without the word `REM`
has the same words when its tokens are written anew, but for a blank before the first, and it
is read as the same program. -/
theorem parse_respaced (source : String) (h : ∀ t ∈ (lex source).tokens, t.kind ≠ .keyword .REM) :
    (lex (respaced source)).tokens.map Token.word =
        atStart ((lex source).tokens.map Token.word) ∧
      ∀ options, (parseWith options (respaced source)).program.seen .unplaced =
        (parseWith options source).program.seen .unplaced :=
  ⟨lex_respaced h, fun _ => Grammar.readProgram_of_words _ _ (lex_respaced h)⟩

/-- A comment, a joined line and an open string behind blanks. -/
theorem parse_respaced_joined : let source := "  X = 1 &\n + 2 ! one\n\n\nY =\t\"a b\n"
    (respaced source).toList = "X = 1 + 2\nY = \"a b".toList ∧
    (lex (respaced source)).tokens.map Token.word =
        atStart ((lex source).tokens.map Token.word) ∧
      ∀ options, (parseWith options (respaced source)).program.seen .unplaced =
        (parseWith options source).program.seen .unplaced := by
  intro source
  exact ⟨by decide +kernel, parse_respaced source (by decide +kernel)⟩

end PickSyntax
