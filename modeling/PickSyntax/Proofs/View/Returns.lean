import PickSyntax.Proofs.Diagnostic.Collector
import PickSyntax.Proofs.Joined.Source
import PickSyntax.Proofs.Lexing.Shapes
import PickSyntax.Proofs.View.Program

/-!
# Lines that end in a carriage return and a line feed

A source is read as before where a carriage return is put before every line feed. The carriage
return is a blank, the part of a continuation between its `&` and its line feed, or the end of
a comment, which is dropped. Only in a string that its line leaves open it would be something
else.

Offsets are moved by one byte for every line feed before them, and nothing else changes. So the
second reading is the first one as it looks through a view that moves offsets.
-/
namespace PickSyntax

/-- A carriage return before every line feed. -/
def returned : List Char → List Char
  | [] => []
  | c :: cs => if c = '\n' then '\r' :: '\n' :: returned cs else c :: returned cs

/-- Where an offset of a text is found when carriage returns are put before its line feeds. -/
def returnedOffset : List Char → Nat → Nat
  | [], n => n
  | c :: cs, n =>
    if n < c.utf8Size then n
    else byteSize (returned [c]) + returnedOffset cs (n - c.utf8Size)

section Returned
variable {c : Char} {cs ds : List Char}

@[simp] theorem returned_nil : returned [] = [] := rfl

@[simp] theorem returned_lineFeed (cs : List Char) :
    returned ('\n' :: cs) = '\r' :: '\n' :: returned cs := rfl

theorem returned_cons (h : c ≠ '\n') (cs : List Char) : returned (c :: cs) = c :: returned cs :=
  if_neg h

@[simp] theorem returned_append (cs ds : List Char) :
    returned (cs ++ ds) = returned cs ++ returned ds := by
  induction cs with
  | nil => rfl
  | cons c cs ih => by_cases h : c = '\n' <;> simp [returned, h, ih]

/-- A text on one line stays as it is. -/
theorem returned_eq (h : '\n' ∉ cs) : returned cs = cs := by
  induction cs with
  | nil => rfl
  | cons c cs ih =>
    rw [List.mem_cons, not_or] at h
    rw [returned_cons (Ne.symm h.1), ih h.2]

/-- A text begins with the same character, or with a carriage return for a line feed. -/
theorem head_returned {P : Char → Prop} (hr : P '\r') (h : ∀ d ∈ cs.head?, P d) :
    ∀ d ∈ (returned cs).head?, P d := by
  cases cs with
  | nil => simp
  | cons c cs =>
    by_cases hc : c = '\n'
    · simpa [returned, hc] using hr
    · simpa [returned, hc] using h

/-- The position behind a text does not change. -/
theorem Position.after_returned (p : Position) (cs : List Char) :
    p.after (returned cs) = p.after cs := by
  induction cs generalizing p with
  | nil => rfl
  | cons c cs ih =>
    by_cases h : c = '\n'
    · subst h
      simp [Position.advance, ih]
    · rw [returned_cons h, Position.after_cons, Position.after_cons, ih]

theorem returnedOffset_zero (cs : List Char) : returnedOffset cs 0 = 0 := by
  cases cs with
  | nil => rfl
  | cons c cs => exact if_pos c.utf8Size_pos

theorem utf8Size_le_returned (c : Char) : c.utf8Size ≤ byteSize (returned [c]) := by
  by_cases h : c = '\n'
  · subst h
    decide
  · simp [returned, h]

theorem returnedOffset_lt (cs : List Char) {m n : Nat} (h : m < n) :
    returnedOffset cs m < returnedOffset cs n := by
  induction cs generalizing m n with
  | nil => exact h
  | cons c cs ih =>
    have hle := utf8Size_le_returned c
    unfold returnedOffset
    split <;> split
    · exact h
    · omega
    · omega
    · have := ih (m := m - c.utf8Size) (n := n - c.utf8Size) (by omega)
      omega

theorem strictMono_returnedOffset (cs : List Char) : StrictMono (returnedOffset cs) :=
  fun _ _ => returnedOffset_lt cs

/-- A place behind a part of a text, or inside the character there, is behind that part with its
carriage returns. -/
theorem returnedOffset_inside (cs : List Char) {inside : Nat} (h : inside < headSize ds) :
    returnedOffset (cs ++ ds) (byteSize cs + inside) = byteSize (returned cs) + inside := by
  induction cs with
  | nil =>
    rw [List.nil_append, byteSize_nil, returned_nil, byteSize_nil, Nat.zero_add]
    cases ds with
    | nil => rfl
    | cons d ds => exact if_pos h
  | cons c cs ih =>
    have hsplit : returned (c :: cs) = returned [c] ++ returned cs := returned_append [c] cs
    rw [List.cons_append, byteSize_cons, Nat.add_assoc, returnedOffset, if_neg (by omega),
      Nat.add_sub_cancel_left, ih, hsplit, byteSize_append, Nat.add_assoc]

/-- The place behind a part of a text is behind that part with its carriage returns. -/
theorem returnedOffset_byteSize (cs ds : List Char) :
    returnedOffset (cs ++ ds) (byteSize cs) = byteSize (returned cs) := by
  have hpos : 0 < headSize ds := by
    cases ds with
    | nil => exact Nat.one_pos
    | cons d ds => exact d.utf8Size_pos
  exact returnedOffset_inside cs hpos

theorem headSize_returned (cs : List Char) : headSize (returned cs) = headSize cs := by
  cases cs with
  | nil => rfl
  | cons c cs =>
    by_cases h : c = '\n'
    · subst h
      rfl
    · rw [returned_cons h]
      rfl

theorem count_returned (cs : List Char) : (returned cs).count '\n' = cs.count '\n' := by
  induction cs with
  | nil => rfl
  | cons c cs ih => by_cases h : c = '\n' <;> simp [returned, h, ih]

end Returned

/-- The view that moves offsets to where they are found with carriage returns. -/
def View.returned (source : List Char) : View where
  char := id
  offset := returnedOffset source
  position := id
  comments := true
  char_eq := View.uncommented.char_eq
  char_isAlpha := View.uncommented.char_isAlpha
  offset_zero := returnedOffset_zero source
  offset_le h := by
    obtain rfl | h := Nat.eq_or_lt_of_le h
    · exact Nat.le_refl _
    · exact Nat.le_of_lt (returnedOffset_lt source h)
  offset_lt _ _ _ h := returnedOffset_lt source h

@[simp] theorem View.returned_text (source : List Char) (t : String) :
    (returned source).text t = t := by
  simp [text, returned]

theorem Fault.seen_returned (source : List Char) (f : Fault) :
    f.seen (.returned source) = ⟨f.cause, f.span.seen (.returned source)⟩ :=
  congrArg (Fault.mk · _) (Fault.seen_cause rfl f)

/-- What a scanner has read of the carriage return before a line feed. -/
def ReturnAhead (ahead : List Char) : Prop := ahead = [] ∨ ahead = ['\r']

namespace Lexeme

/-- The second lexeme is the first one with carriage returns, and has read `ahead` of the one
that follows. -/
structure Returned (ahead : List Char) (l l' : Lexeme) : Prop where
  kind : l'.kind = l.kind
  text : l'.text = returned l.text ++ ahead
  rest : ahead ++ l'.rest = returned l.rest
  line : l.kind ≠ .continuation → '\n' ∉ l.text

section
variable {l l' : Lexeme} {c : Char} {cs : List Char}

/-- A run that a carriage return ends. -/
theorem takeWhile_returned {p : Char → Bool} (hr : p '\r' = false) (hn : p '\n' = false)
    (cs : List Char) : (returned cs).takeWhile p = cs.takeWhile p ∧
      (returned cs).dropWhile p = returned (cs.dropWhile p) := by
  induction cs with
  | nil => exact ⟨rfl, rfl⟩
  | cons c cs ih =>
    by_cases h : c = '\n'
    · subst h
      simp [hr, hn]
    · rw [returned_cons h]
      by_cases hc : p c = true <;> simp [hc, ih, returned_cons h]

/-- A run that goes on over a carriage return. -/
theorem takeWhile_returned_ahead {p : Char → Bool} (hr : p '\r' = true) (hn : p '\n' = false)
    (cs : List Char) : ∃ ahead, ReturnAhead ahead ∧
      (returned cs).takeWhile p = cs.takeWhile p ++ ahead ∧
      ahead ++ (returned cs).dropWhile p = returned (cs.dropWhile p) := by
  induction cs with
  | nil => exact ⟨[], .inl rfl, rfl, rfl⟩
  | cons c cs ih =>
    by_cases h : c = '\n'
    · subst h
      exact ⟨['\r'], .inr rfl, by simp [hr, hn], by simp [hr, hn]⟩
    · rw [returned_cons h]
      by_cases hc : p c = true
      · obtain ⟨ahead, hahead, htake, hdrop⟩ := ih
        exact ⟨ahead, hahead, by simp [hc, htake], by simp [hc, hdrop]⟩
      · exact ⟨[], .inl rfl, by simp [hc], by simp [hc, returned_cons h]⟩

/-- Behind a lexeme that ends before a carriage return. -/
theorem Returned.level (hk : l'.kind = l.kind) (ht : l'.text = l.text) (hn : '\n' ∉ l.text)
    (hr : l'.rest = returned l.rest) : Returned [] l l' :=
  ⟨hk, by rw [ht, returned_eq hn, List.append_nil], hr, fun _ => hn⟩

variable (hc : c ≠ '\n')
include hc

theorem single_returned (k : LexemeKind) (cs : List Char) :
    Returned [] (single k c cs) (single k c (returned cs)) :=
  .level rfl rfl (by simpa [single] using hc.symm) rfl

theorem run_returned {k : LexemeKind} {p : Char → Bool} (hr : p '\r' = false) (hn : p '\n' = false)
    (cs : List Char) : Returned [] (run k p c cs) (run k p c (returned cs)) := by
  obtain ⟨htake, hdrop⟩ := takeWhile_returned hr hn cs
  refine .level rfl ?_ ?_ hdrop
  · rw [run, htake, run]
  · simpa [run] using ⟨hc.symm, not_mem_takeWhile hn cs⟩

theorem run_returned_ahead {k : LexemeKind} {p : Char → Bool} (hr : p '\r' = true)
    (hn : p '\n' = false) (cs : List Char) :
    ∃ ahead, ReturnAhead ahead ∧ Returned ahead (run k p c cs) (run k p c (returned cs)) := by
  obtain ⟨ahead, hahead, htake, hdrop⟩ := takeWhile_returned_ahead hr hn cs
  have hline : '\n' ∉ cs.takeWhile p := not_mem_takeWhile hn cs
  refine ⟨ahead, hahead, rfl, ?_, hdrop, fun _ => by simpa [run, hc.symm] using hline⟩
  rw [run, htake, run, returned_cons hc, returned_eq hline]
  rfl

theorem ampersand_returned (h : '\r' ∉ cs) :
    Returned [] (ampersand c cs) (ampersand c (returned cs)) := by
  cases cs with
  | nil => exact single_returned hc .ampersand []
  | cons d ds =>
    by_cases hd : d = '\n'
    · subst hd
      exact ⟨rfl, by simp [ampersand, returned_cons hc], rfl, fun h => absurd rfl h⟩
    · have hnot : d ≠ '\r' := fun he => h (by simp [he])
      have hsingle (xs : List Char) : ampersand c (d :: xs) = single .ampersand c (d :: xs) := by
        unfold ampersand
        split
        next heq => exact absurd (List.cons.inj heq).1 hd
        next heq => exact absurd (List.cons.inj heq).1 hnot
        next => rfl
      rw [hsingle, returned_cons hd, hsingle, ← returned_cons hd]
      exact single_returned hc .ampersand _

theorem symbol_returned (y : Symbol) (cs : List Char) :
    Returned [] (symbol y c cs) (symbol y c (returned cs)) := by
  have hsingle : '\n' ∉ [c] := by simpa using hc.symm
  by_cases hname : y = .atSign → ∀ d ∈ cs.head?, d.isAlpha = false
  · have hname' : y = .atSign → ∀ d ∈ (returned cs).head?, d.isAlpha = false :=
      fun hy => head_returned (by decide) (hname hy)
    rw [symbol_single hname, symbol_single hname']
    exact .level rfl rfl hsingle rfl
  · obtain ⟨rfl, d, ds, rfl, hd⟩ : y = .atSign ∧ ∃ d ds, cs = d :: ds ∧ d.isAlpha = true := by
      cases cs <;> simp_all
    have hline : d ≠ '\n' := by
      rintro rfl
      revert hd
      decide
    obtain ⟨htake, hdrop⟩ := takeWhile_returned (p := isSystemNameChar) (by decide) (by decide) ds
    rw [returned_cons hline, symbol_name hd, symbol_name hd, htake, hdrop]
    refine .level rfl rfl ?_ rfl
    simpa using ⟨hc.symm, hline.symm, not_mem_takeWhile (by decide) ds⟩

theorem number_returned (cs : List Char) : Returned [] (number c cs) (number c (returned cs)) := by
  obtain ⟨htake, hdrop⟩ := takeWhile_returned (p := Char.isDigit) (by decide) (by decide) cs
  by_cases hpoint : ∀ d ∈ (cs.dropWhile Char.isDigit).head?, d ≠ '.'
  · rw [number_run hpoint, number_run (by rw [hdrop]; exact head_returned (by decide) hpoint)]
    exact run_returned hc (by decide) (by decide) cs
  · obtain ⟨ds, hds⟩ : ∃ ds, cs.dropWhile Char.isDigit = '.' :: ds := by
      simpa [List.head?_eq_some_iff] using hpoint
    obtain ⟨htake', hdrop'⟩ := takeWhile_returned (p := Char.isDigit) (by decide) (by decide) ds
    rw [hds, returned_cons (by decide)] at hdrop
    rw [number_point hds, number_point hdrop, htake, htake', hdrop']
    refine .level rfl rfl ?_ rfl
    have hn {xs : List Char} : '\n' ∉ xs.takeWhile Char.isDigit := not_mem_takeWhile (by decide) xs
    simp [hc.symm, hn]

theorem point_returned (cs : List Char) : Returned [] (point c cs) (point c (returned cs)) := by
  by_cases hdigit : ∀ d ∈ cs.head?, d.isDigit = false
  · rw [point_single hdigit, point_single (head_returned (by decide) hdigit)]
    exact single_returned hc _ cs
  · obtain ⟨d, ds, rfl, hd⟩ : ∃ d ds, cs = d :: ds ∧ d.isDigit = true := by
      cases cs <;> simp_all
    have hline : d ≠ '\n' := by
      rintro rfl
      revert hd
      decide
    rw [returned_cons hline, point_digit hd, point_digit hd, ← returned_cons hline]
    exact run_returned hc (by decide) (by decide) (d :: ds)

theorem quoted_returned {q : Quote} (h : ∀ q', (quoted q c cs).kind ≠ .openString q')
    (hr : '\r' ∉ cs) : Returned [] (quoted q c cs) (quoted q c (returned cs)) := by
  by_cases hopen : ∀ d ∈ (cs.dropWhile (isInside q)).head?, d ≠ q.char
  · have hreturn : (cs.takeWhile (isInside q)).contains '\r' = false := by
      simpa using fun hmem => hr ((List.takeWhile_sublist _).subset hmem)
    refine absurd ?_ (h q)
    rw [quoted_unclosed hopen, hreturn]
    rfl
  · obtain ⟨ds, hds⟩ := exists_delimiter hopen
    have hinside := of_mem_takeWhile (isInside q) cs
    have hbody : '\n' ∉ cs.takeWhile (isInside q) := not_mem_takeWhile (by simp [isInside]) cs
    have hquote : q.char ≠ '\n' := by cases q <;> decide
    generalize cs.takeWhile (isInside q) = body at hds hinside hbody
    subst hds
    rw [returned_append, returned_eq hbody, returned_cons hquote, quoted_closed hinside,
      quoted_closed hinside]
    refine .level rfl rfl ?_ rfl
    simp [hc.symm, hbody, hquote.symm]

/-- With carriage returns the same lexemes are found. Blanks and comments take the carriage
return that follows. -/
theorem scan_returned (hr : '\r' ∉ cs) (hopen : ∀ q, (scan c cs).kind ≠ .openString q) :
    ∃ ahead, ReturnAhead ahead ∧ Returned ahead (scan c cs) (scan c (returned cs)) ∧
      (ahead = [] ∨ (scan c cs).kind = .blank ∨ (scan c cs).kind = .remark) := by
  have level {l l' : Lexeme} (h : Returned [] l l') : ∃ ahead, ReturnAhead ahead ∧
      Returned ahead l l' ∧ (ahead = [] ∨ l.kind = .blank ∨ l.kind = .remark) :=
    ⟨[], .inl rfl, h, .inl rfl⟩
  cases hclass : CharClass.of c <;> simp only [scan, hclass] at hopen ⊢
  case blank =>
    obtain ⟨ahead, hahead, hl⟩ := run_returned_ahead (p := isBlank) hc (by decide) (by decide) cs
    exact ⟨ahead, hahead, hl, .inr (.inl rfl)⟩
  case bang =>
    obtain ⟨ahead, hahead, hl⟩ := run_returned_ahead (p := isOnLine) hc (by decide) (by decide) cs
    exact ⟨ahead, hahead, hl, .inr (.inr rfl)⟩
  case newline => exact level (single_returned hc .newline cs)
  case ampersand => exact level (ampersand_returned hc hr)
  case letter => exact level (run_returned hc (by decide) (by decide) cs)
  case digit => exact level (number_returned hc cs)
  case point => exact level (point_returned hc cs)
  case quote q => exact level (quoted_returned hc hopen hr)
  case symbol y => exact level (symbol_returned hc y cs)
  case other => exact level (single_returned hc _ cs)

omit hc in
/-- A comment takes the carriage return at the end of its line. -/
theorem toLineEnd_returned (h : Returned [] l l') (hk : l.kind ≠ .continuation) :
    ∃ ahead, ReturnAhead ahead ∧ Returned ahead l.toLineEnd l'.toLineEnd := by
  obtain ⟨ahead, hahead, htake, hdrop⟩ :=
    takeWhile_returned_ahead (p := isOnLine) (by decide) (by decide) l.rest
  have hrest : l'.rest = returned l.rest := h.rest
  have hline : '\n' ∉ l.rest.takeWhile isOnLine := not_mem_takeWhile (by decide) l.rest
  refine ⟨ahead, hahead, h.kind, ?_, ?_, fun _ => ?_⟩
  · rw [toLineEnd, toLineEnd, h.text, hrest, htake, returned_append, returned_eq hline]
    simp
  · rw [toLineEnd, hrest, hdrop]
    rfl
  · simp [toLineEnd, h.line hk, hline]

end
end Lexeme

/-- A piece of the second source is what the piece of the first one looks like. -/
structure Piece.Seen (v : View) (p p' : Piece) : Prop where
  token : p'.token? = p.token?.map (Token.seen v)
  comment : p'.comment? = p.comment?.map (Comment.seen v)
  fault : p'.fault? = p.fault?.map (Fault.seen v)

namespace Lexer

/-- The second lexer stands at the same place of the source with carriage returns, and has read
`ahead` of what follows. -/
structure Returned (source ahead : List Char) (s S : Lexer) : Prop where
  read : ∃ cs, source = cs ++ s.rest ∧ s.offset = byteSize cs ∧
    S.offset = byteSize (returned cs) + byteSize ahead
  rest : ahead ++ S.rest = returned s.rest
  position : S.position = s.position.after ahead
  previous : S.previous = s.previous.map (Token.seen (.returned source))
  lineStart : S.lineStart = s.lineStart

namespace Returned
variable {source ahead text : List Char} {s S : Lexer} {l l' : Lexeme}

theorem skip (h : Returned source [] s S) (hl : l.Returned ahead l')
    (hs : s.rest = l.text ++ l.rest) : Returned source ahead (s.skip l) (S.skip l') where
  read := by
    obtain ⟨cs, hsource, hoffset, hoffset'⟩ := h.read
    refine ⟨cs ++ l.text, ?_, ?_, ?_⟩
    · rw [hsource, hs, List.append_assoc]
      rfl
    · simp [Lexer.skip, hoffset]
    · simp [Lexer.skip, hoffset', hl.text]
      omega
  rest := hl.rest
  position := by
    have hposition : S.position = s.position := h.position
    simp only [Lexer.skip, hposition, hl.text, Position.after_append, Position.after_returned]
  previous := h.previous
  lineStart := h.lineStart

theorem atStatement (h : Returned source ahead s S) : S.atStatement = s.atStatement := by
  rw [Lexer.atStatement, h.previous, h.lineStart, Lexer.atStatement]
  cases s.previous <;> rfl

/-- Both lexers stand at the same place. -/
theorem offset (h : Returned source [] s S) : S.offset = returnedOffset source s.offset := by
  obtain ⟨cs, hsource, hoffset, hoffset'⟩ := h.read
  have hplace := returnedOffset_byteSize cs s.rest
  rw [← hsource] at hplace
  rw [hoffset', hoffset, hplace]
  rfl

theorem spanOf {rest : List Char} (h : Returned source [] s S) (hs : s.rest = text ++ rest)
    (hn : '\n' ∉ text) : S.spanOf text = (s.spanOf text).seen (.returned source) := by
  obtain ⟨cs, hsource, hoffset, -⟩ := h.read
  have hstart := returnedOffset_byteSize cs s.rest
  have hstop := returnedOffset_byteSize (cs ++ text) rest
  rw [← hsource] at hstart
  rw [List.append_assoc, ← hs, ← hsource, returned_append, byteSize_append, byteSize_append,
    returned_eq hn, ← hstart, ← hoffset, ← h.offset] at hstop
  rw [Lexer.spanOf, Lexer.spanOf, Span.seen_mk]
  exact congrArg₂ Span.mk h.offset hstop.symm

theorem tokenOf (h : Returned source [] s S) (hl : l.Returned [] l')
    (hs : s.rest = l.text ++ l.rest) (hn : '\n' ∉ l.text) (k : TokenKind) :
    S.tokenOf k l' = (s.tokenOf k l).seen (.returned source) := by
  have htext : l'.text = l.text := by rw [hl.text, returned_eq hn, List.append_nil]
  have hposition : S.position = s.position := h.position
  have hmono := strictMono_returnedOffset source
  have hzero := hmono.lt_iff_lt (a := 0) (b := s.offset)
  rw [returnedOffset_zero] at hzero
  have hspaced : (S.tokenOf k l').spaced = (s.tokenOf k l).spaced := by
    simp only [Lexer.tokenOf, h.previous, h.offset]
    cases s.previous with
    | none => simpa using hzero
    | some t =>
      change (returnedOffset source t.span.stop != returnedOffset source s.offset) = _
      rw [Bool.eq_iff_iff, bne_iff_ne, bne_iff_ne, hmono.injective.ne_iff]
  have hspan := h.spanOf hs hn
  rw [Token.seen, View.returned_text, ← hspaced]
  simp only [Lexer.tokenOf, htext, hspan, hposition, h.lineStart]
  rfl

/-- The lexer behind a token. -/
theorem accept (h : Returned source [] s S) (hl : l.Returned [] l') (hs : s.rest = l.text ++ l.rest)
    (hn : '\n' ∉ l.text) (k : TokenKind) :
    Returned source [] (s.accept (s.tokenOf k l) l) (S.accept (S.tokenOf k l') l') where
  read := (h.skip hl hs).read
  rest := (h.skip hl hs).rest
  position := (h.skip hl hs).position
  previous := congrArg some (h.tokenOf hl hs hn k)
  lineStart := rfl

end Returned

section Step
variable {source ahead : List Char} {s S : Lexer} {l l' : Lexeme}

/-- A token, and the lexers behind it. -/
theorem emit_returned (h : Returned source [] s S) (hl : l.Returned [] l')
    (hs : s.rest = l.text ++ l.rest) (hn : '\n' ∉ l.text) (k : TokenKind) :
    (s.emit k l).1.Seen (.returned source) (S.emit k l').1 ∧
      Returned source [] (s.emit k l).2 (S.emit k l').2 :=
  ⟨⟨congrArg some (h.tokenOf hl hs hn k), rfl, rfl⟩, h.accept hl hs hn k⟩

theorem trimReturns_ahead {text : List Char} (h : '\r' ∉ text) (hahead : ReturnAhead ahead) :
    trimReturns (text ++ ahead) = text := by
  have hself : text.reverse.dropWhile (· == '\r') = text.reverse := by
    cases ht : text.reverse with
    | nil => rfl
    | cons d ds =>
      have hd : d ∈ text := List.mem_reverse.mp (by rw [ht]; exact List.mem_cons_self ..)
      have hne : ¬(d == '\r') = true := by
        rw [beq_iff_eq]
        exact fun he => h (he ▸ hd)
      exact List.dropWhile_cons_of_neg hne
  obtain rfl | rfl := hahead <;> simp [trimReturns, hself]

/-- A comment loses its carriage returns. -/
theorem remark_returned (h : Returned source [] s S) (hl : l.Returned ahead l')
    (hs : s.rest = l.text ++ l.rest) (hn : '\n' ∉ l.text) (hr : '\r' ∉ l.text)
    (hahead : ReturnAhead ahead) (mark : CommentMark) :
    (s.remark mark l).1.Seen (.returned source) (S.remark mark l').1 ∧
      Returned source ahead (s.remark mark l).2 (S.remark mark l').2 := by
  have htrim : trimReturns l.text = l.text := by
    simpa using trimReturns_ahead hr (.inl rfl)
  have htrim' : trimReturns l'.text = l.text := by
    rw [hl.text, returned_eq hn, trimReturns_ahead hr hahead]
  have hspan := h.spanOf hs hn
  refine ⟨⟨rfl, ?_, rfl⟩, h.skip hl hs⟩
  simp only [Lexer.remark, htrim, htrim', hspan, h.atStatement]
  cases s.atStatement <;> simp [Piece.comment?, Comment.seen]

theorem opensRemark_returned (cs : List Char) : opensRemark (returned cs) = opensRemark cs := by
  cases cs with
  | nil => rfl
  | cons c cs => by_cases h : c = '\n' <;> simp [returned, opensRemark, h]

/-- A fault of the lexer. -/
theorem fault_returned (h : Returned source [] s S) (hl : l.Returned [] l')
    (hs : s.rest = l.text ++ l.rest) (hn : '\n' ∉ l.text) (cause : Cause) :
    Piece.Seen (.returned source) (.fault ⟨cause, s.spanOf l.text⟩)
        (.fault ⟨cause, S.spanOf l'.text⟩) ∧
      Returned source [] (s.skip l) (S.skip l') := by
  have htext : l'.text = l.text := by rw [hl.text, returned_eq hn, List.append_nil]
  refine ⟨⟨rfl, rfl, ?_⟩, h.skip hl hs⟩
  simp [Piece.fault?, Fault.seen_returned, htext, h.spanOf hs hn]

/-- A comment to the end of its line. -/
theorem toLineEnd_returned (h : Returned source [] s S) (hl : l.Returned [] l')
    (hs : s.rest = l.text ++ l.rest) (hr : '\r' ∉ s.rest) (hk : l.kind ≠ .continuation)
    (mark : CommentMark) : ∃ ahead, ReturnAhead ahead ∧
      (s.remark mark l.toLineEnd).1.Seen (.returned source) (S.remark mark l'.toLineEnd).1 ∧
      Returned source ahead (s.remark mark l.toLineEnd).2 (S.remark mark l'.toLineEnd).2 := by
  obtain ⟨ahead, hahead, hend⟩ := Lexeme.toLineEnd_returned hl hk
  have hsplit : s.rest = l.toLineEnd.text ++ l.toLineEnd.rest := by rw [l.toLineEnd_split, hs]
  have hreturn : '\r' ∉ l.toLineEnd.text := fun hmem =>
    hr (by rw [hsplit]; exact List.mem_append_left _ hmem)
  exact ⟨ahead, hahead, remark_returned h hend hsplit (hend.line hk) hreturn hahead mark⟩

/-- A lexeme other than a line feed amounts to the same. -/
theorem step_returned (h : Returned source [] s S) (hl : l.Returned ahead l')
    (hs : s.rest = l.text ++ l.rest) (hr : '\r' ∉ s.rest) (hahead : ReturnAhead ahead)
    (hlevel : ahead = [] ∨ l.kind = .blank ∨ l.kind = .remark) (hline : l.kind ≠ .newline)
    (hopen : ∀ q, l.kind ≠ .openString q) :
    ∃ ahead, ReturnAhead ahead ∧ (s.step l).1.Seen (.returned source) (S.step l').1 ∧
      Returned source ahead (s.step l).2 (S.step l').2 := by
  have hkind := hl.kind
  have hn := hl.line
  unfold step
  cases hk : l.kind <;> simp only [hk] at hkind hn hlevel hline hopen <;> rw [hkind]
  case newline => exact absurd rfl hline
  case openString q => exact absurd rfl (hopen q)
  case blank => exact ⟨ahead, hahead, ⟨rfl, rfl, rfl⟩, h.skip hl hs⟩
  case remark =>
    have hreturn : '\r' ∉ l.text := fun hmem =>
      hr (by rw [hs]; exact List.mem_append_left _ hmem)
    exact ⟨ahead, hahead, remark_returned h hl hs (hn nofun) hreturn hahead .bang⟩
  all_goals obtain rfl : ahead = [] := by simpa using hlevel
  case continuation => exact ⟨[], .inl rfl, ⟨rfl, rfl, rfl⟩, h.skip hl hs⟩
  case ampersand => exact ⟨[], .inl rfl, fault_returned h hl hs (hn nofun) _⟩
  case invalid c => exact ⟨[], .inl rfl, fault_returned h hl hs (hn nofun) _⟩
  case systemName => exact ⟨[], .inl rfl, emit_returned h hl hs (hn nofun) _⟩
  case number => exact ⟨[], .inl rfl, emit_returned h hl hs (hn nofun) _⟩
  case string q => exact ⟨[], .inl rfl, emit_returned h hl hs (hn nofun) _⟩
  case word =>
    have htext : l'.text = l.text := by rw [hl.text, returned_eq (hn nofun), List.append_nil]
    have hrest : l'.rest = returned l.rest := hl.rest
    simp only [htext, hrest, opensRemark_returned]
    split
    next => exact ⟨[], .inl rfl, emit_returned h hl hs (hn nofun) _⟩
    next k _ =>
      split
      next => exact toLineEnd_returned h hl hs hr (by simp [hk]) .rem
      next => exact ⟨[], .inl rfl, emit_returned h hl hs (hn nofun) _⟩
  case symbol y =>
    simp only [h.atStatement]
    split
    next => exact toLineEnd_returned h hl hs hr (by simp [hk]) .star
    next => exact ⟨[], .inl rfl, emit_returned h hl hs (hn nofun) _⟩

/-- Behind the carriage return, both lexers read the line feed. -/
theorem newline_returned {cs : List Char} (h : Returned source ['\r'] s S)
    (hs : s.rest = '\n' :: cs) :
    ∃ ds, S.rest = '\n' :: ds ∧
      (s.step (Lexeme.scan '\n' cs)).1.Seen (.returned source) (S.step (Lexeme.scan '\n' ds)).1 ∧
      Returned source [] (s.step (Lexeme.scan '\n' cs)).2 (S.step (Lexeme.scan '\n' ds)).2 := by
  have hscan (xs : List Char) : Lexeme.scan '\n' xs = ⟨.newline, ['\n'], xs⟩ := rfl
  have hrest : S.rest = '\n' :: returned cs := by
    have hrest := h.rest
    rw [hs] at hrest
    exact (List.cons.inj hrest).2
  obtain ⟨before, hsource, hoffset, hoffset'⟩ := h.read
  refine ⟨_, hrest, ⟨rfl, rfl, rfl⟩, ⟨before ++ ['\n'], ?_, ?_, ?_⟩, rfl, ?_, h.previous, rfl⟩
  · rw [hsource, hs, List.append_assoc]
    rfl
  · simp [hscan, step, skip, hoffset]
  · simp [hscan, step, skip, hoffset']
    omega
  · simp [hscan, step, skip, h.position, Position.advance]

/-- The carriage return before a line feed is a blank. -/
theorem blank_returned {cs : List Char} (h : Returned source [] s S) (hs : s.rest = '\n' :: cs) :
    ∃ p S', S.pieces = .trivia p :: S'.pieces ∧ p.kind = .blank ∧ Returned source ['\r'] s S' := by
  let l : Lexeme := ⟨.blank, ['\r'], '\n' :: returned cs⟩
  have hrest : S.rest = '\r' :: '\n' :: returned cs := by
    have hrest := h.rest
    rwa [hs] at hrest
  have hscan : Lexeme.scan '\r' ('\n' :: returned cs) = l := rfl
  have hposition : S.position = s.position := h.position
  obtain ⟨before, hsource, hoffset, hoffset'⟩ := h.read
  refine ⟨⟨.blank, S.spanOf l.text⟩, S.skip l, ?_, rfl, ⟨before, hsource, hoffset, ?_⟩, ?_, ?_,
    h.previous, h.lineStart⟩
  · rw [pieces_cons hrest, hscan]
    rfl
  · simp [skip, hoffset', l]
  · rw [hs]
    rfl
  · simp [skip, hposition, l]

/-- What is read with carriage returns looks like what is read without. -/
structure SeenAll (v : View) (ps qs : List Piece) : Prop where
  tokens : qs.filterMap Piece.token? = (ps.filterMap Piece.token?).map (Token.seen v)
  comments : qs.filterMap Piece.comment? = (ps.filterMap Piece.comment?).map (Comment.seen v)
  faults : qs.filterMap Piece.fault? = (ps.filterMap Piece.fault?).map (Fault.seen v)

theorem SeenAll.cons {v : View} {p q : Piece} {ps qs : List Piece} (hp : p.Seen v q)
    (h : SeenAll v ps qs) : SeenAll v (p :: ps) (q :: qs) := by
  obtain ⟨ht, hc, hf⟩ := hp
  refine ⟨?_, ?_, ?_⟩
  · rw [List.filterMap_cons, List.filterMap_cons, ht, h.tokens]
    cases p.token? <;> rfl
  · rw [List.filterMap_cons, List.filterMap_cons, hc, h.comments]
    cases p.comment? <;> rfl
  · rw [List.filterMap_cons, List.filterMap_cons, hf, h.faults]
    cases p.fault? <;> rfl

theorem SeenAll.blank {v : View} {ps qs : List Piece} {t : Trivia} (h : SeenAll v ps qs) :
    SeenAll v ps (.trivia t :: qs) := ⟨h.tokens, h.comments, h.faults⟩

end Step

/-- The run over a source with carriage returns. -/
theorem pieces_returned {source ahead : List Char} {s S : Lexer} (h : Returned source ahead s S)
    (hahead : ReturnAhead ahead) (hr : '\r' ∉ s.rest) (hopen : ∀ t, .openString t ∉ s.pieces) :
    SeenAll (.returned source) s.pieces S.pieces := by
  induction s using pieces_induction generalizing S ahead with
  | nil s hs =>
    have hrest := h.rest
    rw [hs, returned_nil, List.append_eq_nil_iff] at hrest
    rw [pieces_nil hs, pieces_nil hrest.2]
    exact ⟨rfl, rfl, rfl⟩
  | cons s c cs hs ih =>
    have hsplit : s.rest = (Lexeme.scan c cs).text ++ (Lexeme.scan c cs).rest := by
      rw [hs, Lexeme.scan_split]
    rw [pieces_cons hs] at hopen
    have hnext := fun t ht => hopen t (List.mem_cons_of_mem _ ht)
    have hreturn : '\r' ∉ (s.step (Lexeme.scan c cs)).2.rest := by
      obtain ⟨text, gap, hlaid, -⟩ := s.step_lays c cs
      rw [hs, hlaid] at hr
      exact fun hmem => hr (List.mem_append_right _ (List.mem_append_right _ hmem))
    by_cases hc : c = '\n'
    · subst hc
      -- The carriage return may have been read before, or is a blank now.
      have line {S : Lexer} (h : Returned source ['\r'] s S) :
          SeenAll (.returned source) s.pieces S.pieces := by
        obtain ⟨ds, hS, hp, hafter⟩ := newline_returned h hs
        rw [pieces_cons hs, pieces_cons hS]
        exact .cons hp (ih hafter (.inl rfl) hreturn hnext)
      obtain rfl | rfl := hahead
      · obtain ⟨p, S', hS, -, hblank⟩ := blank_returned h hs
        rw [hS]
        exact (line hblank).blank
      · exact line h
    · obtain rfl : ahead = [] := by
        refine hahead.resolve_right fun hahead => hr ?_
        have hrest := h.rest
        rw [hs, returned_cons hc, hahead] at hrest
        rw [hs, ← (List.cons.inj hrest).1]
        exact List.mem_cons_self ..
      have hS : S.rest = c :: returned cs := by rw [← returned_cons hc, ← hs, ← h.rest]; rfl
      have hclosed : ∀ q, (Lexeme.scan c cs).kind ≠ .openString q := by
        intro q hq
        have hp : (s.step (Lexeme.scan c cs)).1 =
            .openString (s.tokenOf (.string q) (Lexeme.scan c cs)) := by rw [step, hq]
        exact hopen _ (List.mem_cons.mpr (.inl hp.symm))
      have hcs : '\r' ∉ cs := fun hmem => hr (by rw [hs]; exact List.mem_cons_of_mem _ hmem)
      obtain ⟨ahead, hahead, hl, hlevel⟩ := Lexeme.scan_returned hc hcs hclosed
      obtain ⟨ahead, hahead, hp, hafter⟩ := step_returned h hl hsplit hr hahead hlevel
        (fun hk => hc (Lexeme.eq_lineFeed hk)) hclosed
      rw [pieces_cons hs, pieces_cons hS]
      exact .cons hp (ih hafter hahead hreturn hnext)

end Lexer

theorem lex_returned {source : String} (hr : '\r' ∉ source.toList)
    (hopen : ∀ f ∈ (lex source).faults, f.cause ≠ .openString) :
    Lexer.SeenAll (.returned source.toList) (Lexer.start source.toList).pieces
      (Lexer.start (returned source.toList)).pieces := by
  have hstart : Lexer.Returned source.toList [] (Lexer.start source.toList)
      (Lexer.start (returned source.toList)) := ⟨⟨[], rfl, rfl, rfl⟩, rfl, rfl, rfl, rfl⟩
  refine Lexer.pieces_returned hstart (.inl rfl) hr fun t ht => ?_
  exact hopen ⟨.openString, t.span⟩ (List.mem_filterMap.mpr ⟨_, ht, rfl⟩) rfl

/-- The lines are cut at the same characters. -/
theorem Cut.returned {source lines line : List Char} {offset inside : Nat}
    (h : Cut source offset lines line inside) : Cut (PickSyntax.returned source)
      (returnedOffset source offset) (PickSyntax.returned lines) line inside := by
  obtain ⟨⟨rest, rfl, hrest⟩, hended, hunbroken, rfl⟩ := h
  constructor
  · refine ⟨PickSyntax.returned rest, ?_, ?_⟩
    · rw [returned_append, returned_append, returned_eq hunbroken]
    · rwa [headSize_returned]
  · obtain rfl | ⟨ds, rfl⟩ := hended
    · exact .inl rfl
    · exact .inr ⟨PickSyntax.returned ds ++ ['\r'], by simp⟩
  · exact hunbroken
  · have hoffset := returnedOffset_inside (lines ++ line) hrest
    rw [List.append_assoc, byteSize_append, returned_append, byteSize_append,
      returned_eq hunbroken] at hoffset
    rw [← Nat.add_assoc, hoffset, Nat.add_assoc]

/-- Lines and columns stay the same. -/
theorem Position.ofOffset_returned (source : List Char) (offset : Nat) :
    ofOffset (returned source) (returnedOffset source offset) = ofOffset source offset := by
  obtain ⟨lines, line, inside, h⟩ := exists_cut (Nat.min_le_right offset (byteSize source))
  have hend : returnedOffset source (byteSize source) = byteSize (returned source) := by
    simpa using returnedOffset_byteSize source []
  have hreturned := h.returned
  rw [(strictMono_returnedOffset source).monotone.map_min, hend] at hreturned
  rw [ofOffset_of_cut h, ofOffset_of_cut hreturned, count_returned]

namespace Diagnostic
variable (source : List Char)

theorem locate_returned (severity : Severity) (f : Fault) :
    locate (returned source) severity (f.seen (.returned source)) =
      (locate source severity f).seen (.returned source) := by
  have hp : (f.seen (.returned source)).span.start = returnedOffset source f.span.start := rfl
  rw [locate, hp, Position.ofOffset_returned]
  rfl

theorem report_returned (limit : Nat) (faults : List Fault) :
    report (returned source) limit (faults.map (Fault.seen (.returned source))) =
      (report source limit faults).map (seen (.returned source)) := by
  rw [report_eq, ← List.map_take, ← List.map_drop, report_eq, List.map_append, List.map_map,
    List.map_map]
  congr 1
  · simp [Function.comp_def, locate_returned]
  · cases faults.drop limit with
    | nil => rfl
    | cons f fs =>
      exact congrArg (· :: []) (locate_returned source .warning ⟨.overLimit limit, f.span⟩)

theorem order_returned (lexical grammar : List Fault) :
    order (lexical.map (Fault.seen (.returned source)))
        (grammar.map (Fault.seen (.returned source))) =
      (order lexical grammar).map (Fault.seen (.returned source)) := by
  have hm : (grammar.map (Fault.seen (.returned source))).mergeSort
      (fun a b => a.span.start ≤ b.span.start) =
      (grammar.mergeSort fun a b => a.span.start ≤ b.span.start).map
        (Fault.seen (.returned source)) := by
    refine (List.map_mergeSort (f := Fault.seen (.returned source)) fun a _ b _ => ?_).symm
    exact decide_eq_decide.mpr ((strictMono_returnedOffset source).le_iff_le).symm
  rw [order, hm, order, List.map_append]

end Diagnostic

/-- A source whose lines end in a carriage return and a line feed is read as one whose lines end
in a line feed: only byte offsets are others. No string may be left open at the end of its
line. -/
theorem parse_returned (source : String) (hr : '\r' ∉ source.toList)
    (hopen : ∀ f ∈ (lex source).faults, f.cause ≠ .openString) :
    let v := View.returned source.toList
    let source' := String.ofList (returned source.toList)
    (lex source').tokens = (lex source).tokens.map (Token.seen v) ∧
      (lex source').comments = (lex source).comments.map (Comment.seen v) ∧
      (lex source').faults = (lex source).faults.map (Fault.seen v) ∧
      ∀ options,
        (parseWith options source').program = (parseWith options source).program.seen v ∧
        (parseWith options source').diagnostics =
          (parseWith options source).diagnostics.map (Diagnostic.seen v) := by
  intro v source'
  have hsource : source'.toList = returned source.toList := String.toList_ofList
  obtain ⟨htokens, hcomments, hfaults⟩ := lex_returned hr hopen
  rw [← hsource] at htokens hcomments hfaults
  refine ⟨htokens, hcomments, hfaults, fun options => ?_⟩
  have hstart : Parser.State.ofLexing (lex source') options.keepComments =
      (Parser.State.ofLexing (lex source) options.keepComments).seen v := by
    have htokens : (lex source').tokens = _ := htokens
    have hcomments : (lex source').comments = _ := hcomments
    rw [Parser.State.ofLexing, htokens, hcomments]
    cases options.keepComments <;> rfl
  have hread := Parser.State.readProgram_seen v (.ofLexing (lex source) options.keepComments)
  have hfaults : (lex source').faults = (lex source).faults.map (Fault.seen v) := hfaults
  simp only [parseWith, hstart, hread, hfaults, hsource, true_and]
  rw [← Diagnostic.report_returned, ← Diagnostic.order_returned]
  rfl

/-- A joined line, a comment of each kind, and a line that is not finished. -/
theorem parse_returned_unfinished :
    let source := "* one\nX = 1 &\n + 2 ! two\n\nREM\nY =\n"
    let v := View.returned source.toList
    let source' := "* one\r\nX = 1 &\r\n + 2 ! two\r\n\r\nREM\r\nY =\r\n"
    returned source.toList = source'.toList ∧
      (parse source').program = (parse source).program.seen v ∧
      (parse source').diagnostics = (parse source).diagnostics.map (Diagnostic.seen v) := by
  intro source v source'
  have hsource : returned source.toList = source'.toList := by decide +kernel
  have h := parse_returned source (by decide +kernel) (by decide +kernel)
  simp only [hsource, String.ofList_toList] at h
  exact ⟨hsource, h.2.2.2 {}⟩

end PickSyntax
