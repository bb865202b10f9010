import Mathlib
import PickSyntax.Proofs.Lexing.Flags
import PickSyntax.Proofs.Rendering.Words
import PickSyntax.Proofs.Structure.Proper

/-!
# Characters that begin nothing

A character is found fault with where no lexeme begins with it, and the fault is about that
character alone. There is one exception, which is no such character: the delimiter of a string
that is open at the end of its line and holds a carriage return. Of such a string no token is
made, and the fault takes up all of it.

So a quote that is not part of a comment or of another string begins a string, unless it stands
in a string of that kind.
-/
namespace PickSyntax

/-- No lexeme begins with the character where this text follows it. -/
structure BeginsNothing (c : Char) (after : List Char) : Prop where
  letter : c.isAlpha = false
  digit : c.isDigit = false
  blank : isBlank c = false
  lineFeed : c ≠ '\n'
  quote : ∀ q : Quote, c ≠ q.char
  bang : c ≠ '!'
  ampersand : c ≠ '&'
  symbol : ∀ y : Symbol, c ≠ y.char
  point : c = '.' → ∀ d ∈ after.head?, d.isDigit = false

namespace Span

/-- The range holds one character, with which no lexeme begins. -/
def HoldsStray (source : List Char) (c : Char) (x : Span) : Prop :=
  ∃ before after, source = before ++ c :: after ∧ byteSize before = x.start ∧
    x.stop = x.start + c.utf8Size ∧ BeginsNothing c after

/-- The range holds a string up to the end of its line, which leaves it open, and there is a
carriage return in it. -/
def HoldsBroken (source : List Char) (q : Quote) (x : Span) : Prop :=
  ∃ before body after, source = before ++ q.char :: (body ++ after) ∧ byteSize before = x.start ∧
    x.stop = x.start + byteSize (q.char :: body) ∧
    (∀ d ∈ body, Lexeme.isInside q d = true) ∧ '\r' ∈ body ∧ ∀ d ∈ after.head?, d = '\n'

end Span

namespace Lexing

/-- The offset is not in a comment, nor in a string behind its first delimiter. -/
structure Outside (l : Lexing) (offset : Nat) : Prop where
  comment : ∀ t ∈ l.trivia, t.isComment = true → t.span.contains offset = false
  string : ∀ t ∈ l.tokens, ∀ q, t.kind = .string q → t.span.start < offset →
    t.span.stop ≤ offset

/-- A fault about a character is about it alone, and it begins nothing; a quote outside of
comments and other strings begins a string. The strings that are `broken` are left out of
both. -/
structure Strays (l : Lexing) (source : List Char) (broken : Quote → Span → Prop) : Prop where
  alone : ∀ f ∈ l.faults, ∀ c, f.cause = .strayCharacter c →
    f.span.HoldsStray source c ∨ ∃ q : Quote, c = q.char ∧ broken q f.span
  quotes : ∀ before (q : Quote) after, source = before ++ q.char :: after →
    l.Outside (byteSize before) →
    (∃ t ∈ l.tokens, t.kind = .string q ∧ t.span.start = byteSize before) ∨
      ∃ f ∈ l.faults, ∃ q' : Quote, f.cause = .strayCharacter q'.char ∧ broken q' f.span ∧
        f.span.contains (byteSize before) = true

end Lexing

namespace CharClass
variable {c : Char}

/-- A character without a class of its own begins nothing. -/
theorem beginsNothing_of_other (h : of c = .other) (after : List Char) : BeginsNothing c after := by
  have hclass {d : Char} (hd : of d ≠ .other) : c ≠ d := by
    rintro rfl
    exact hd h
  constructor
  · rw [Bool.eq_false_iff]
    intro hc
    rw [of_isAlpha hc] at h
    cases h
  · rw [Bool.eq_false_iff]
    intro hc
    rw [of_isDigit hc] at h
    cases h
  · rw [Bool.eq_false_iff]
    intro hc
    simp [of, hc] at h
  · exact hclass (by decide)
  · intro q
    exact hclass (by cases q <;> decide)
  · exact hclass (by decide)
  · exact hclass (by decide)
  · intro y
    exact hclass (by cases y <;> decide)
  · intro hc
    exact absurd hc (hclass (by decide))

theorem eq_point (h : of c = .point) : c = '.' := by
  unfold of at h
  repeat' split at h
  all_goals cases h
  exact beq_iff_eq.mp ‹_›

end CharClass

/-- A point without a digit behind it begins nothing. -/
theorem beginsNothing_point {after : List Char} (h : ∀ d ∈ after.head?, d.isDigit = false) :
    BeginsNothing '.' after := by
  constructor
  · decide
  · decide
  · decide
  · decide
  · intro q
    cases q <;> decide
  · decide
  · decide
  · intro y
    cases y <;> decide
  · intro _
    exact h

namespace Lexeme
variable {c d : Char} {cs a b : List Char} {q : Quote}

/-- An invalid lexeme is a character that begins nothing, or a broken string. -/
theorem scan_invalid (h : (scan c cs).kind = .invalid d) : d = c ∧
    ((scan c cs).text = [c] ∧ BeginsNothing c cs ∨
      ∃ q : Quote, c = q.char ∧ ∃ body, (scan c cs).text = c :: body ∧
        (∀ e ∈ body, isInside q e = true) ∧ '\r' ∈ body ∧
        ∀ e ∈ (scan c cs).rest.head?, e = '\n') := by
  have hyields := scan_yields c cs
  rw [h] at hyields
  cases hclass : CharClass.of c <;> rw [hclass] at hyields <;> simp only [scan, hclass] at h ⊢
  case other =>
    cases h
    exact ⟨rfl, .inl ⟨rfl, CharClass.beginsNothing_of_other hclass cs⟩⟩
  case point =>
    obtain rfl := CharClass.eq_point hclass
    have hstop : ∀ e ∈ cs.head?, e.isDigit = false := by
      intro e he
      obtain ⟨es, rfl⟩ := List.head?_eq_some_iff.mp he
      by_contra hdigit
      rw [point_digit (Bool.not_eq_false _ ▸ hdigit)] at h
      cases h
    rw [point_single hstop] at h ⊢
    cases h
    exact ⟨rfl, .inl ⟨rfl, beginsNothing_point hstop⟩⟩
  case quote q =>
    obtain rfl := CharClass.eq_char_of_quote hclass
    by_cases hopen : ∀ e ∈ (cs.dropWhile (isInside q)).head?, e ≠ q.char
    · rw [quoted_unclosed hopen] at h ⊢
      dsimp only at h ⊢
      split at h
      next hreturn =>
        cases h
        refine ⟨rfl, .inr ⟨q, rfl, _, rfl, of_mem_takeWhile (isInside q) cs, ?_, ?_⟩⟩
        · simpa using hreturn
        · intro e he
          simpa [isInside, hopen e he] using dropWhile_stop (isInside q) cs e he
      next => cases h
    · obtain ⟨ds, hds⟩ := exists_delimiter hopen
      rw [hds, quoted_closed (of_mem_takeWhile (isInside q) cs)] at h
      cases h
  all_goals cases hyields

/-- Only strings and remarks hold a quote. -/
theorem quote_not_mem (hquote : ∀ q, CharClass.of c ≠ .quote q) (hbang : CharClass.of c ≠ .bang)
    (q : Quote) : q.char ∉ (scan c cs).text := by
  have hhead : q.char ≠ c := by
    rintro rfl
    exact hquote q (CharClass.of_quote q)
  have hblank : isBlank q.char = false := by cases q <;> decide
  have hword : isWordChar q.char = false := by cases q <;> decide
  have hname : isSystemNameChar q.char = false := by cases q <;> decide
  have halpha : q.char.isAlpha = false := by cases q <;> decide
  have hdigit : q.char.isDigit = false := by cases q <;> decide
  have hpoint : q.char ≠ '.' := by cases q <;> decide
  have hbreak : q.char ≠ '\n' ∧ q.char ≠ '\r' := by cases q <;> decide
  have hrun (p : Char → Bool) (hp : p q.char = false) (k : LexemeKind) :
      q.char ∉ (run k p c cs).text := by
    simpa [run, hhead] using not_mem_takeWhile hp cs
  have hsingle (k : LexemeKind) : q.char ∉ (single k c cs).text := by
    simpa [single] using hhead
  cases hclass : CharClass.of c <;> simp only [scan, hclass]
  case blank => exact hrun isBlank hblank _
  case newline => exact hsingle _
  case bang => exact absurd hclass hbang
  case letter => exact hrun isWordChar hword _
  case other => exact hsingle _
  case quote q' => exact absurd hclass (hquote q')
  case ampersand =>
    unfold ampersand
    split
    · simp [hhead, hbreak.1]
    · simp [hhead, hbreak.1, hbreak.2]
    · exact hsingle _
  case digit =>
    unfold number
    split
    next ds _ =>
      simp [hhead, hpoint, not_mem_takeWhile hdigit cs, not_mem_takeWhile hdigit ds]
    next => exact hrun Char.isDigit hdigit _
  case point =>
    unfold point
    repeat' split
    · exact hrun Char.isDigit hdigit _
    · exact hsingle _
    · exact hsingle _
  case symbol y =>
    unfold symbol
    repeat' split
    next d ds hd =>
      have hne : q.char ≠ d := by
        rintro rfl
        rw [halpha] at hd
        cases hd
      simp [hhead, hne, not_mem_takeWhile hname ds]
    · exact hsingle _
    · exact hsingle _

/-- A lexeme with a quote in it is a remark or a string, and a string with that delimiter if the
quote is its first character. -/
theorem scan_quote (h : (scan c cs).text = a ++ q.char :: b) : (scan c cs).kind = .remark ∨
    ∃ q' : Quote, (a = [] → q' = q) ∧ ((scan c cs).kind = .string q' ∨
      (scan c cs).kind = .openString q' ∨ (scan c cs).kind = .invalid q'.char) := by
  have hyields := scan_yields c cs
  by_cases hbang : CharClass.of c = .bang
  · rw [hbang] at hyields
    generalize (scan c cs).kind = kind at hyields
    cases hyields
    exact .inl rfl
  by_cases hquote : ∃ q', CharClass.of c = .quote q'
  · obtain ⟨q', hclass⟩ := hquote
    have hc := CharClass.eq_char_of_quote hclass
    refine .inr ⟨q', ?_, ?_⟩
    · rintro rfl
      have hhead := scan_text_head c cs
      rw [h, hc, List.nil_append, List.head?_cons, Option.some_inj] at hhead
      have hof := congrArg Quote.ofChar? hhead
      simpa using hof.symm
    · rw [hclass] at hyields
      cases hk : (scan c cs).kind <;> rw [hk] at hyields <;> cases hyields
      · exact .inl rfl
      · exact .inr (.inl rfl)
      · exact .inr (.inr (by rw [(scan_invalid hk).1, hc]))
  · rw [not_exists] at hquote
    have hmem : q.char ∈ (scan c cs).text := by simp [h]
    exact absurd hmem (quote_not_mem hquote hbang q)

end Lexeme

/-- What begins no earlier than a part ends stands behind that part. -/
theorem exists_behind {front rest before after : List Char} (h : front ++ rest = before ++ after)
    (hle : byteSize front ≤ byteSize before) : ∃ a, before = front ++ a ∧ rest = a ++ after := by
  obtain ⟨a, rfl, hrest⟩ | ⟨a, rfl, hafter⟩ := List.append_eq_append_iff.mp h
  · exact ⟨a, rfl, hrest⟩
  · obtain rfl : a = [] := by
      by_contra hne
      have := byteSize_pos hne
      rw [byteSize_append] at hle
      omega
    exact ⟨[], by simp, by simpa using hafter.symm⟩

/-- A character that stands in a part by its offset is a character of that part. -/
theorem exists_part {front text rest before after : List Char} {c : Char}
    (h : front ++ (text ++ rest) = before ++ c :: after) (hle : byteSize front ≤ byteSize before)
    (hlt : byteSize before < byteSize front + byteSize text) :
    ∃ a b, text = a ++ c :: b ∧ before = front ++ a := by
  obtain ⟨a, rfl, htail⟩ := exists_behind h hle
  rw [byteSize_append] at hlt
  have hnot : ¬byteSize text ≤ byteSize a := by omega
  obtain ⟨b, rfl, -⟩ | ⟨b, rfl, hrest⟩ := List.append_eq_append_iff.mp htail
  · rw [byteSize_append] at hnot
    omega
  · cases b with
    | nil =>
      rw [List.append_nil] at hnot
      omega
    | cons d ds =>
      obtain ⟨rfl, -⟩ := List.cons.inj hrest
      exact ⟨a, ds, rfl, rfl⟩

/-- Every character but a carriage return is part of a piece. -/
theorem Laid.exists_contains {offset : Nat} {text before after : List Char} {ps : List Piece}
    {c : Char} (h : Laid offset text ps) (hs : text = before ++ c :: after) (hc : c ≠ '\r') :
    ∃ p ∈ ps, p.span.contains (offset + byteSize before) = true := by
  induction h generalizing before with
  | nil => cases before <;> cases hs
  | @cons offset p ps text gap rest hfills htrails _ ih =>
    by_cases htext : byteSize before < byteSize text
    · refine ⟨p, List.mem_cons_self, ?_⟩
      rw [hfills.span]
      simpa [Span.contains] using htext
    by_cases hgap : byteSize before < byteSize text + byteSize gap
    · -- Behind the text of a piece there are carriage returns only.
      obtain ⟨a, b, rfl, -⟩ := exists_part hs (Nat.le_of_not_lt htext) hgap
      exact absurd (htrails.returns c (by simp)) hc
    · rw [← List.append_assoc] at hs
      obtain ⟨a, rfl, hrest⟩ := exists_behind hs (by rw [byteSize_append]; omega)
      obtain ⟨q, hq, hcontains⟩ := ih hrest
      refine ⟨q, List.mem_cons_of_mem _ hq, ?_⟩
      rw [byteSize_append, byteSize_append]
      simpa only [Nat.add_assoc] using hcontains

namespace Lexer
variable {s : Lexer} {l : Lexeme} {c : Char} {cs : List Char} {q : Quote} {source : List Char}
  {qs : List Piece}

/-- What is no comment has the range of its lexeme. -/
theorem step_span (s : Lexer) (l : Lexeme) :
    (s.step l).1.isComment = true ∨ (s.step l).1.span = s.spanOf l.text := by
  unfold step
  repeat' split
  all_goals first
    | exact .inr rfl
    | exact .inl rfl

theorem step_remark (h : l.kind = .remark) : (s.step l).1.isComment = true := by
  simp [step, h, remark, Piece.isComment]

theorem step_string (h : l.kind = .string q ∨ l.kind = .openString q) :
    (s.step l).1.token? = some (s.tokenOf (.string q) l) := by
  obtain h | h := h <;> simp [step, h, emit, Piece.token?]

theorem step_invalid (h : l.kind = .invalid c) :
    (s.step l).1 = .fault ⟨.strayCharacter c, s.spanOf l.text⟩ := by
  simp [step, h]

/-- A fault about a character comes from an invalid lexeme. -/
theorem kind_of_stray {f : Fault} (h : (s.step l).1.fault? = some f)
    (hc : f.cause = .strayCharacter c) : l.kind = .invalid c ∧ f.span = s.spanOf l.text := by
  unfold step at h
  split at h <;> rename_i hk
  case h_5 =>
    cases h
    cases hc
    exact ⟨hk, rfl⟩
  all_goals
    repeat' split at h
    all_goals cases h
    all_goals cases hc

/-- The range of an invalid lexeme holds what the fault is about. -/
theorem Reached.holds_invalid (h : s.Reached source qs) (hr : s.rest = c :: cs) {d : Char}
    (hk : (Lexeme.scan c cs).kind = .invalid d) :
    (s.spanOf (Lexeme.scan c cs).text).HoldsStray source d ∨
      ∃ q : Quote, d = q.char ∧ (s.spanOf (Lexeme.scan c cs).text).HoldsBroken source q := by
  obtain ⟨before, hsource, hsize⟩ := h.place
  have hsplit := Lexeme.scan_split c cs
  obtain ⟨rfl, ⟨htext, hnothing⟩ | ⟨q, hq, body, htext, hinside, hreturn, hend⟩⟩ :=
    Lexeme.scan_invalid hk
  · refine .inl ⟨before, cs, by rw [hsource, hr], hsize, ?_, hnothing⟩
    simp [spanOf, htext]
  · refine .inr ⟨q, hq, before, body, (Lexeme.scan d cs).rest, ?_, hsize, ?_, hinside, hreturn,
      hend⟩
    · rw [hsource, hr, ← hq, ← List.cons_append, ← htext, hsplit]
    · rw [← hq, ← htext]
      rfl

/-- The piece in which a quote stands is a comment, or a string that the quote begins or that has
begun before it, or a broken string. -/
theorem Reached.quote_piece (h : s.Reached source qs) (hr : s.rest = c :: cs)
    {before after : List Char} (hsource : source = before ++ q.char :: after)
    (hin : (s.step (Lexeme.scan c cs)).1.span.contains (byteSize before) = true) :
    (s.step (Lexeme.scan c cs)).1.isComment = true ∨
      (∃ t q', (s.step (Lexeme.scan c cs)).1.token? = some t ∧ t.kind = .string q' ∧
        (t.span.start = byteSize before → q' = q)) ∨
      ∃ f, ∃ q' : Quote, (s.step (Lexeme.scan c cs)).1.fault? = some f ∧
        f.cause = .strayCharacter q'.char ∧ f.span.HoldsBroken source q' := by
  obtain hcomment | hspan := s.step_span (Lexeme.scan c cs)
  · exact .inl hcomment
  obtain ⟨front, hfront, hsize⟩ := h.place
  rw [hspan, spanOf, ← hsize, Span.contains, Bool.and_eq_true, decide_eq_true_eq,
    decide_eq_true_eq] at hin
  have hparts : front ++ ((Lexeme.scan c cs).text ++ (Lexeme.scan c cs).rest) =
      before ++ q.char :: after := by
    rw [Lexeme.scan_split, ← hr, ← hfront, hsource]
  obtain ⟨a, b, htext, rfl⟩ := exists_part hparts hin.1 hin.2
  obtain hk | ⟨q', hq', hk⟩ := Lexeme.scan_quote htext
  · exact .inl (step_remark hk)
  have hstring (hk : (Lexeme.scan c cs).kind = .string q' ∨
      (Lexeme.scan c cs).kind = .openString q') :
      ∃ t q', (s.step (Lexeme.scan c cs)).1.token? = some t ∧ t.kind = .string q' ∧
        (t.span.start = byteSize (front ++ a) → q' = q) := by
    refine ⟨_, q', step_string hk, rfl, fun hstart => hq' ?_⟩
    -- A quote where the string starts is its first character.
    change s.offset = _ at hstart
    rw [byteSize_append, hsize] at hstart
    by_contra hne
    have := byteSize_pos hne
    omega
  obtain hk | hk | hk := hk
  · exact .inr (.inl (hstring (.inl hk)))
  · exact .inr (.inl (hstring (.inr hk)))
  · refine .inr (.inr ⟨_, q', by rw [step_invalid hk]; rfl, rfl, ?_⟩)
    obtain hstray | ⟨q'', hq, hbroken⟩ := h.holds_invalid hr hk
    · obtain ⟨_, _, -, -, -, hnothing⟩ := hstray
      exact absurd rfl (hnothing.quote q')
    · have hof := congrArg Quote.ofChar? hq
      rw [Quote.ofChar?_char, Quote.ofChar?_char, Option.some_inj] at hof
      exact hof ▸ hbroken

end Lexer

namespace Lexing
variable {source : String}

theorem strays_alone {f : Fault} {c : Char} (hf : f ∈ (lex source).faults)
    (hc : f.cause = .strayCharacter c) : f.span.HoldsStray source.toList c ∨
      ∃ q : Quote, c = q.char ∧ f.span.HoldsBroken source.toList q := by
  obtain ⟨p, hp, hpf⟩ := List.mem_filterMap.mp hf
  obtain ⟨qs, rs, hsplit⟩ := List.append_of_mem hp
  obtain ⟨s, d, ds, hs, hr, rfl⟩ := Lexer.exists_reached hsplit
  obtain ⟨hk, hspan⟩ := Lexer.kind_of_stray hpf hc
  rw [hspan]
  exact hs.holds_invalid hr hk

theorem quotes_begin {before after : List Char} {q : Quote}
    (h : source.toList = before ++ q.char :: after) (hout : (lex source).Outside (byteSize before)) :
    (∃ t ∈ (lex source).tokens, t.kind = .string q ∧ t.span.start = byteSize before) ∨
      ∃ f ∈ (lex source).faults, ∃ q' : Quote, f.cause = .strayCharacter q'.char ∧
        f.span.HoldsBroken source.toList q' ∧ f.span.contains (byteSize before) = true := by
  have hreturn : q.char ≠ '\r' := by cases q <;> decide
  obtain ⟨p, hp, hin⟩ := (Lexer.pieces_laid (Lexer.start source.toList)).exists_contains h hreturn
  change p.span.contains (0 + byteSize before) = true at hin
  rw [Nat.zero_add] at hin
  obtain ⟨qs, rs, hsplit⟩ := List.append_of_mem hp
  obtain ⟨s, d, ds, hs, hr, rfl⟩ := Lexer.exists_reached hsplit
  obtain hcomment | ⟨t, q', ht, hk, hq⟩ | ⟨f, q', hf, hcause, hbroken⟩ := hs.quote_piece hr h hin
  · obtain ⟨t, ht, hc, hcontains⟩ :=
      (exists_comment_iff fun x => x.contains (byteSize before) = true).mpr ⟨_, hp, hcomment, hin⟩
    rw [hout.comment t ht hc] at hcontains
    cases hcontains
  · have hmem : t ∈ (lex source).tokens := List.mem_filterMap.mpr ⟨_, hp, ht⟩
    rw [Piece.span_of_token? ht, Span.contains, Bool.and_eq_true, decide_eq_true_eq,
      decide_eq_true_eq] at hin
    have hstart : t.span.start = byteSize before := by
      obtain hlt | heq := Nat.lt_or_eq_of_le hin.1
      · have hstop := hout.string t hmem q' hk hlt
        omega
      · exact heq
    exact .inl ⟨t, hmem, hq hstart ▸ hk, hstart⟩
  · refine .inr ⟨f, List.mem_filterMap.mpr ⟨_, hp, hf⟩, q', hcause, hbroken, ?_⟩
    rwa [← Piece.span_of_fault? hf]

end Lexing

/-- An invalid character of a source is one character, and it begins no lexeme; a quote that stands
neither in a comment nor in another string begins a string. Only strings that their line leaves
open and that hold a carriage return are an exception, to both. -/
theorem lex_strays (source : String) :
    (lex source).Strays source.toList fun q x => x.HoldsBroken source.toList q where
  alone _ hf _ := Lexing.strays_alone hf
  quotes _ _ _ := Lexing.quotes_begin

/-- A string left open before a carriage return and a line feed is such an exception: the fault
about its delimiter takes up three bytes. -/
theorem not_strays : ¬∀ source, (lex source).Strays source.toList fun _ _ => False := by
  intro h
  have hfault : (⟨.strayCharacter '\x27', ⟨4, 7⟩⟩ : Fault) ∈ (lex "X = 'A\r\n").faults := by
    decide +kernel
  obtain ⟨before, after, -, hstart, hstop, -⟩ | ⟨q, -, hfalse⟩ := (h _).alone _ hfault _ rfl
  · have hsize : '\x27'.utf8Size = 1 := rfl
    rw [hsize] at hstop
    cases hstop
  · exact hfalse

end PickSyntax
