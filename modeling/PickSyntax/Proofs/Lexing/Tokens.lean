import PickSyntax.Lexing
import PickSyntax.Proofs.Parser.Accounting

/-!
# The tokens of a source

What one step of the lexer can do is said once (`step_token`, `step_other`), and from that
the shape of the whole list follows: the tokens stand in the order of the source without
overlapping, none of them is empty, and the text of each says the same as its kind.
-/
namespace PickSyntax

theorem byteSize_pos {text : List Char} (h : text ≠ []) : 0 < byteSize text := by
  cases text with
  | nil => exact absurd rfl h
  | cons c cs =>
    have := c.utf8Size_pos
    rw [byteSize_cons]
    omega

/-- The token kinds that a lexeme can become. -/
inductive Lexeme.Makes (l : Lexeme) : TokenKind → Prop
  | identifier : l.kind = .word → Keyword.ofWord? l.text = none → Makes l .identifier
  | keyword {k : Keyword} : l.kind = .word → Keyword.ofWord? l.text = some k → Makes l (.keyword k)
  | symbol {y : Symbol} : l.kind = .symbol y → Makes l (.symbol y)
  | systemName : l.kind = .systemName → Makes l .systemName
  | number : l.kind = .number → Makes l .number
  | string {q : Quote} : l.kind = .string q → Makes l (.string q)
  | openString {q : Quote} : l.kind = .openString q → Makes l (.string q)

namespace Lexer
variable {s : Lexer} {l : Lexeme} {t : Token}

/-- A step that yields a token moves right past it. -/
theorem step_token (h : (s.step l).1.token? = some t) :
    ∃ k, l.Makes k ∧ t = s.tokenOf k l ∧ (s.step l).2 = s.accept t l := by
  unfold step at h ⊢
  split at h <;> rename_i hk
  · cases h
  · cases h
  · cases h
  · cases h
  · cases h
  · cases h
  · split at h <;> rename_i hw
    · cases h
      exact ⟨_, .identifier hk hw, rfl, rfl⟩
    · split at h <;> rename_i hrem
      · cases h
      · cases h
        exact ⟨_, .keyword hk hw, rfl, by rw [if_neg hrem]; rfl⟩
  · split at h <;> rename_i hstar
    · cases h
    · cases h
      exact ⟨_, .symbol hk, rfl, by rw [if_neg hstar]; rfl⟩
  · cases h
    exact ⟨_, .systemName hk, rfl, rfl⟩
  · cases h
    exact ⟨_, .number hk, rfl, rfl⟩
  · cases h
    exact ⟨_, .string hk, rfl, rfl⟩
  · cases h
    exact ⟨_, .openString hk, rfl, rfl⟩

theorem step_offset_le (s : Lexer) (l : Lexeme) : s.offset ≤ (s.step l).2.offset := by
  unfold step
  repeat' split
  all_goals simp [skip, emit, accept, remark]

theorem pieces_nil (h : s.rest = []) : s.pieces = [] := by
  rw [pieces]
  split
  next => rfl
  next hn => simp [next?, h] at hn

theorem pieces_cons {c : Char} {cs : List Char} (h : s.rest = c :: cs) :
    s.pieces = (s.step (Lexeme.scan c cs)).1 :: (s.step (Lexeme.scan c cs)).2.pieces := by
  rw [pieces]
  split
  next hn => simp [next?, h] at hn
  next hn =>
    simp only [next?, h, Option.some.injEq] at hn
    rw [hn]

/-- Induction along the pieces of a source. -/
theorem pieces_induction {P : Lexer → Prop} (nil : ∀ s, s.rest = [] → P s)
    (cons : ∀ s c cs, s.rest = c :: cs → P (s.step (Lexeme.scan c cs)).2 → P s) (s : Lexer) :
    P s := by
  induction hk : s.rest.length using Nat.strongRecOn generalizing s with
  | ind k ih =>
    cases hr : s.rest with
    | nil => exact nil s hr
    | cons c cs =>
      refine cons s c cs hr (ih _ ?_ _ rfl)
      rw [← hk]
      exact next?_rest_lt (by rw [next?, hr])

end Lexer

theorem Symbol.char_of_ofChar? {c : Char} {y : Symbol} (h : Symbol.ofChar? c = some y) :
    c = y.char := by
  unfold Symbol.ofChar? at h
  split at h <;> cases h <;> rfl

/-- A character of the class of a symbol is that symbol. -/
theorem CharClass.eq_char_of_symbol {c : Char} {y : Symbol} (h : CharClass.of c = .symbol y) :
    c = y.char := by
  refine Symbol.char_of_ofChar? ?_
  unfold CharClass.of at h
  repeat' split at h
  all_goals simp_all

/-- Only an `@` and a word make a system name. -/
theorem Lexeme.scan_systemName {c : Char} {cs : List Char}
    (h : (Lexeme.scan c cs).kind = .systemName) :
    ∃ d ds, d ≠ '@' ∧ (Lexeme.scan c cs).text = '@' :: d :: ds := by
  unfold Lexeme.scan at h ⊢
  split at h <;> rename_i hc
  · cases h
  · cases h
  · unfold ampersand at h
    split at h <;> cases h
  · cases h
  · cases h
  · unfold number at h
    split at h <;> cases h
  · unfold point at h
    split at h
    · split at h <;> cases h
    · cases h
  · unfold quoted at h
    dsimp only at h
    repeat' split at h
    all_goals cases h
  · have hc := CharClass.eq_char_of_symbol hc
    unfold symbol at h ⊢
    split at h
    next d ds _ =>
      split at h
      next hd =>
        rw [if_pos hd]
        refine ⟨d, _, ?_, by rw [hc]; rfl⟩
        rintro rfl
        revert hd
        decide
      next => cases h
    next => cases h
  · cases h

theorem Lexer.wellSpelled_tokenOf {s : Lexer} {c : Char} {cs : List Char} {k : TokenKind}
    (h : (Lexeme.scan c cs).Makes k) : (s.tokenOf k (Lexeme.scan c cs)).WellSpelled := by
  cases h with
  | identifier _ hw => simpa [Token.WellSpelled, Lexer.tokenOf] using hw
  | keyword _ hw => simpa [Token.WellSpelled, Lexer.tokenOf] using hw
  | systemName hk =>
    obtain ⟨d, ds, hd, htext⟩ := Lexeme.scan_systemName hk
    have hname : Grammar.systemName (String.ofList (Lexeme.scan c cs).text)
        = String.ofList (d :: ds) := by
      simp [Grammar.systemName, htext, hd]
    change String.ofList _ = "@" ++ Grammar.systemName (String.ofList _)
    rw [hname, htext]
    change String.ofList (['@'] ++ d :: ds) = _
    exact String.ofList_append
  | _ => trivial

/-- The tokens stand in order from an offset on, one after the other, and none is empty. -/
structure Ordered (offset : Nat) (ts : List Token) : Prop where
  bound : ∀ t ∈ ts, offset ≤ t.span.start ∧ t.span.start < t.span.stop
  apart : ts.Pairwise fun t u => t.span.stop ≤ u.span.start

namespace Ordered
variable {offset : Nat} {t u : Token} {ts us : List Token}

theorem append_left (h : Ordered offset (ts ++ us)) : Ordered offset ts :=
  ⟨fun t ht => h.bound t (List.mem_append_left _ ht), (List.pairwise_append.mp h.apart).1⟩

theorem append_right (h : Ordered offset (ts ++ us)) : Ordered offset us :=
  ⟨fun t ht => h.bound t (List.mem_append_right _ ht), (List.pairwise_append.mp h.apart).2.1⟩

theorem tail (h : Ordered offset (t :: ts)) : Ordered offset ts :=
  @append_right offset [t] ts h

theorem suffix (h : Ordered offset ts) (hs : us <:+ ts) : Ordered offset us := by
  obtain ⟨vs, rfl⟩ := hs
  exact h.append_right

theorem stop_le_start (h : Ordered offset (ts ++ us)) (ht : t ∈ ts) (hu : u ∈ us) :
    t.span.stop ≤ u.span.start :=
  (List.pairwise_append.mp h.apart).2.2 t ht u hu

/-- No token starts before the first one. -/
theorem head_start_le (h : Ordered offset ts) (hu : ts.head? = some u) (ht : t ∈ ts) :
    u.span.start ≤ t.span.start := by
  obtain ⟨us, rfl⟩ := List.head?_eq_some_iff.mp hu
  obtain rfl | ht := List.mem_cons.mp ht
  · exact Nat.le_refl _
  · have ha := (List.pairwise_cons.mp h.apart).1 t ht
    have hb := h.bound u (by simp)
    omega

/-- No token ends after the last one. -/
theorem stop_le_getLast (h : Ordered offset ts) (hu : ts.getLast? = some u) (ht : t ∈ ts) :
    t.span.stop ≤ u.span.stop := by
  obtain ⟨us, rfl⟩ := List.getLast?_eq_some_iff.mp hu
  obtain ht | ht := List.mem_append.mp ht
  · have ha := h.stop_le_start ht (List.mem_singleton_self u)
    have hb := h.bound u (by simp)
    omega
  · exact Nat.le_of_eq (by rw [List.mem_singleton.mp ht])

/-- The first token starts before any of them ends. -/
theorem start_le_stop (h : Ordered offset (t :: us)) (hu : (t :: us).getLast? = some u) :
    t.span.start ≤ u.span.stop := by
  have hb := h.bound t (by simp)
  have hle := h.stop_le_getLast hu (List.mem_cons_self ..)
  omega

/-- No two tokens start at the same byte. -/
theorem suffix_unique {vs : List Token} (h : Ordered offset ts) (ht : (t :: us) <:+ ts)
    (hu : (u :: vs) <:+ ts) (heq : t.span.start = u.span.start) : t :: us = u :: vs := by
  obtain hsuffix | hsuffix := List.suffix_or_suffix_of_suffix ht hu
  · obtain heq' | hmem := List.suffix_cons_iff.mp hsuffix
    · exact heq'
    · have ha := (List.pairwise_cons.mp (h.suffix hu).apart).1 t (hmem.subset (by simp))
      have hb := (h.suffix hu).bound u (by simp)
      omega
  · obtain heq' | hmem := List.suffix_cons_iff.mp hsuffix
    · exact heq'.symm
    · have ha := (List.pairwise_cons.mp (h.suffix ht).apart).1 u (hmem.subset (by simp))
      have hb := (h.suffix ht).bound t (by simp)
      omega

end Ordered

theorem Lexer.pieces_tokens (s : Lexer) : Ordered s.offset (s.pieces.filterMap Piece.token?) ∧
    ∀ t ∈ s.pieces.filterMap Piece.token?, t.WellSpelled := by
  induction s using Lexer.pieces_induction with
  | nil s h => simpa [Lexer.pieces_nil h] using ⟨nofun, .nil⟩
  | cons s c cs h ih =>
    obtain ⟨⟨hb, ha⟩, hw⟩ := ih
    rw [Lexer.pieces_cons h]
    cases hp : (s.step (Lexeme.scan c cs)).1.token? with
    | none =>
      rw [List.filterMap_cons_none hp]
      have hle := s.step_offset_le (Lexeme.scan c cs)
      exact ⟨⟨fun t ht => ⟨Nat.le_trans hle (hb t ht).1, (hb t ht).2⟩, ha⟩, hw⟩
    | some t =>
      obtain ⟨k, hk, rfl, hs⟩ := Lexer.step_token hp
      have hpos := byteSize_pos (Lexeme.scan_text_ne_nil c cs)
      have hoff : (s.step (Lexeme.scan c cs)).2.offset
          = (s.tokenOf k (Lexeme.scan c cs)).span.stop := by
        rw [hs]
        rfl
      rw [List.filterMap_cons_some hp]
      refine ⟨⟨?_, ?_⟩, ?_⟩
      · intro t ht
        obtain rfl | ht := List.mem_cons.mp ht
        · exact ⟨Nat.le_refl _, Nat.lt_add_of_pos_right hpos⟩
        · have hle := s.step_offset_le (Lexeme.scan c cs)
          exact ⟨Nat.le_trans hle (hb t ht).1, (hb t ht).2⟩
      · refine List.pairwise_cons.mpr ⟨fun t ht => ?_, ha⟩
        rw [← hoff]
        exact (hb t ht).1
      · intro t ht
        obtain rfl | ht := List.mem_cons.mp ht
        · exact Lexer.wellSpelled_tokenOf hk
        · exact hw t ht

theorem lex_ordered (source : String) : Ordered 0 (lex source).tokens :=
  (Lexer.pieces_tokens (Lexer.start source.toList)).1

theorem lex_wellSpelled (source : String) : ∀ t ∈ (lex source).tokens, t.WellSpelled :=
  (Lexer.pieces_tokens (Lexer.start source.toList)).2

end PickSyntax
