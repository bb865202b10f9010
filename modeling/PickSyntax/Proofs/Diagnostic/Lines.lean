import Mathlib
import PickSyntax.LineIndex
import PickSyntax.Proofs.Lexing.Coverage

/-!
# The index of lines is exact

What a position says of an offset can be counted in the bytes of the source in front of it: its
line feeds, and what stands behind the last of them. Between characters the column counts the
characters there, and inside a character the bytes. The binary search and the table of line
starts agree with that count, for every source and every offset, and an offset that is further
on has a later position.
-/
namespace PickSyntax

/-- The text in UTF-8. -/
def bytes (text : List Char) : List UInt8 := text.flatMap String.utf8EncodeChar

/-- A line feed in UTF-8. -/
def lineFeed : UInt8 := 0x0A

section Bytes
variable {c : Char} {a b : List Char} {k : Nat}

@[simp] theorem bytes_append (a b : List Char) : bytes (a ++ b) = bytes a ++ bytes b :=
  List.flatMap_append

@[simp] theorem bytes_cons (c : Char) (a : List Char) :
    bytes (c :: a) = String.utf8EncodeChar c ++ bytes a := rfl

@[simp] theorem length_bytes (text : List Char) : (bytes text).length = byteSize text := by
  induction text with
  | nil => rfl
  | cons c cs ih => rw [bytes_cons, List.length_append, String.length_utf8EncodeChar, ih, byteSize_cons]

/-- The byte of a line feed is part of no other character. -/
theorem eq_of_lineFeed_mem (h : lineFeed ∈ String.utf8EncodeChar c) : c = '\n' := by
  have hbyte (n : Nat) (hlow : n ≠ 10) (hhigh : n < 256) : ¬lineFeed = UInt8.ofNat n := by
    intro h
    have hnat := congrArg UInt8.toNat h
    rw [UInt8.toNat_ofNat_of_lt' hhigh] at hnat
    exact hlow hnat.symm
  by_cases hc : c.val.toNat = 10
  · exact Char.ext (UInt32.toNat_inj.mp hc)
  · unfold String.utf8EncodeChar at h
    dsimp only at h
    repeat' split at h
    all_goals
      simp (disch := omega) only [List.mem_cons, List.not_mem_nil, or_false, hbyte] at h

theorem lineFeed_mem_bytes (h : lineFeed ∈ bytes a) : '\n' ∈ a := by
  obtain ⟨c, hc, hmem⟩ := List.mem_flatMap.mp h
  exact eq_of_lineFeed_mem hmem ▸ hc

theorem count_bytes (a : List Char) : (bytes a).count lineFeed = a.count '\n' := by
  induction a with
  | nil => rfl
  | cons c cs ih =>
    rw [bytes_cons, List.count_append, ih, List.count_cons]
    by_cases hc : c = '\n'
    · subst hc
      rw [Nat.add_comm]
      rfl
    · have hnone : (String.utf8EncodeChar c).count lineFeed = 0 :=
        List.count_eq_zero.mpr fun h => hc (eq_of_lineFeed_mem h)
      simp [hnone, hc]

/-- The bytes in front of an offset inside the next character. -/
theorem take_bytes (hk : k < headSize b) : ∃ part, part.length = k ∧ lineFeed ∉ part ∧
    (bytes (a ++ b)).take (byteSize a + k) = bytes a ++ part := by
  refine ⟨(bytes b).take k, ?_, ?_, ?_⟩
  · rw [List.length_take, length_bytes]
    cases b with
    | nil => exact (Nat.lt_one_iff.mp hk).symm ▸ rfl
    | cons c cs =>
      rw [byteSize_cons]
      exact Nat.min_eq_left (Nat.le_of_lt (Nat.lt_add_right _ hk))
  · intro hmem
    cases b with
    | nil => simp [bytes] at hmem
    | cons c cs =>
      -- A character that holds an offset has more bytes than a line feed.
      rw [bytes_cons, List.take_append_of_le_length
        (by rw [String.length_utf8EncodeChar]; exact Nat.le_of_lt hk)] at hmem
      have hc := eq_of_lineFeed_mem (List.mem_of_mem_take hmem)
      subst hc
      have hzero : k = 0 := Nat.lt_one_iff.mp hk
      simp [hzero] at hmem
  · rw [bytes_append, ← length_bytes a, List.take_length_add_append]

end Bytes

/-- How much of a list stands behind the last `x` in it. -/
def lengthBehind {α : Type} [DecidableEq α] (x : α) (xs : List α) : Nat :=
  (xs.reverse.takeWhile (· ≠ x)).length

theorem lengthBehind_append {α : Type} [DecidableEq α] {x : α} {a b : List α}
    (ha : ∀ y ∈ a.getLast?, y = x) (hb : x ∉ b) : lengthBehind x (a ++ b) = b.length := by
  have hall : ∀ y ∈ b.reverse, decide (y ≠ x) = true := by
    intro y hy
    rw [decide_eq_true_eq]
    rintro rfl
    exact hb (List.mem_reverse.mp hy)
  have hnone : a.reverse.takeWhile (· ≠ x) = [] := by
    rw [← List.head?_reverse] at ha
    cases hrev : a.reverse with
    | nil => rfl
    | cons y ys => simp [ha y (by rw [hrev]; rfl)]
  rw [lengthBehind, List.reverse_append, List.takeWhile_append_of_pos hall, hnone,
    List.append_nil, List.length_reverse]

namespace Cut
variable {source lines line : List Char} {offset inside : Nat}

theorem getLast?_lines (h : Cut source offset lines line inside) : ∀ c ∈ lines.getLast?, c = '\n' := by
  obtain rfl | ⟨ds, rfl⟩ := h.ended
  · nofun
  · simp

/-- The bytes in front of the offset. -/
theorem take_bytes (h : Cut source offset lines line inside) : ∃ part, part.length = inside ∧
    lineFeed ∉ part ∧ (bytes source).take offset = bytes lines ++ (bytes line ++ part) := by
  obtain ⟨⟨rest, rfl, hrest⟩, -, -, rfl⟩ := h
  obtain ⟨part, hlength, hpart, htake⟩ := PickSyntax.take_bytes (a := lines ++ line) hrest
  exact ⟨part, hlength, hpart, by simpa [Nat.add_assoc] using htake⟩

theorem count_bytes (h : Cut source offset lines line inside) :
    ((bytes source).take offset).count lineFeed = lines.count '\n' := by
  obtain ⟨part, -, hpart, htake⟩ := h.take_bytes
  rw [htake, List.count_append, List.count_append, PickSyntax.count_bytes, PickSyntax.count_bytes,
    List.count_eq_zero.mpr h.unbroken, List.count_eq_zero.mpr hpart]
  rfl

theorem lengthBehind_bytes (h : Cut source offset lines line inside) :
    lengthBehind lineFeed ((bytes source).take offset) = byteSize line + inside := by
  obtain ⟨part, hlength, hpart, htake⟩ := h.take_bytes
  have hlast : ∀ y ∈ (bytes lines).getLast?, y = lineFeed := by
    obtain rfl | ⟨ds, rfl⟩ := h.ended
    · nofun
    · have hbytes : bytes (ds ++ ['\n']) = bytes ds ++ [lineFeed] := bytes_append ds ['\n']
      simp [hbytes]
  have hnone : lineFeed ∉ bytes line ++ part := by
    rw [List.mem_append, not_or]
    exact ⟨fun hmem => h.unbroken (lineFeed_mem_bytes hmem), hpart⟩
  rw [htake, lengthBehind_append hlast hnone, List.length_append, length_bytes, hlength]

/-- Only between characters there are no bytes of a next one. -/
theorem isBoundary_iff (h : Cut source offset lines line inside) :
    IsBoundary source offset ↔ inside = 0 := by
  obtain ⟨⟨rest, rfl, hrest⟩, -, -, rfl⟩ := h
  constructor
  · rintro ⟨before, after, hsource, hbefore⟩
    by_contra hne
    cases rest with
    | nil => exact hne (Nat.lt_one_iff.mp hrest)
    | cons c cs =>
      have hcut := splitBytes?_append before after
      have hnone := splitBytes?_inside (Nat.pos_of_ne_zero hne) hrest (lines ++ line) cs
      rw [← hsource, hbefore] at hcut
      rw [byteSize_append, List.append_assoc, Nat.add_assoc, hcut] at hnone
      cases hnone
  · rintro rfl
    exact ⟨lines ++ line, rest, by simp, by simp⟩

end Cut

namespace Position

/-- How many characters a text has behind its last line feed. -/
def lastLineLength (text : List Char) : Nat := (text.reverse.takeWhile (· ≠ '\n')).length

/-- Lines are counted by line feeds, and columns by the characters of the line. -/
theorem after_origin (text : List Char) :
    origin.after text = ⟨1 + text.count '\n', 1 + lastLineLength text⟩ := by
  rw [← List.reverse_reverse text]
  induction text.reverse with
  | nil => rfl
  | cons c cs ih =>
    rw [List.reverse_cons, after_append, ih, after_cons, after_nil]
    by_cases hc : c = '\n'
    · simp [advance, lastLineLength, hc, Nat.add_assoc]
    · simp [advance, lastLineLength, hc, Nat.add_assoc]

end Position

/-- An offset between characters is not behind the source. -/
theorem IsBoundary.le {source : List Char} {offset : Nat} (h : IsBoundary source offset) :
    offset ≤ byteSize source := by
  obtain ⟨before, after, rfl, rfl⟩ := h
  rw [byteSize_append]
  exact Nat.le_add_right ..

/-- The position of an offset is the line and the column of the character there. -/
def IsPositionOf (source : List Char) (offset : Nat) (p : Position) : Prop :=
  ∃ before after, source = before ++ after ∧ byteSize before = offset ∧
    p.line = 1 + before.count '\n' ∧ p.column = 1 + Position.lastLineLength before

namespace Position

/-- The index finds the position that is reached by reading up to the offset. -/
theorem ofOffset_eq_after (before after : List Char) :
    ofOffset (before ++ after) (byteSize before) = origin.after before := by
  have hboundary : IsBoundary (before ++ after) (byteSize before) := ⟨before, after, rfl, rfl⟩
  have hmin := Nat.min_eq_left hboundary.le
  obtain ⟨lines, line, inside, h⟩ := exists_cut hboundary.le
  obtain rfl := h.isBoundary_iff.mp hboundary
  obtain ⟨rest, hsource, -⟩ := h.source
  obtain ⟨rfl, -⟩ : before = lines ++ line ∧ after = rest := by
    refine eq_of_byteSize_eq (by rw [hsource, List.append_assoc]) ?_
    rw [h.offset, byteSize_append, Nat.add_zero]
  have hlast : lastLineLength (lines ++ line) = line.length :=
    lengthBehind_append h.getLast?_lines h.unbroken
  rw [ofOffset_of_cut (hmin.symm ▸ h), after_origin, hlast, List.count_append,
    List.count_eq_zero.mpr h.unbroken, if_pos rfl, Nat.add_zero, Nat.add_comm 1, Nat.add_comm 1]

end Position

theorem IsBoundary.isPositionOf {source : List Char} {offset : Nat}
    (h : IsBoundary source offset) :
    IsPositionOf source offset (.ofOffset source offset) := by
  obtain ⟨before, after, rfl, rfl⟩ := h
  rw [Position.ofOffset_eq_after, Position.after_origin]
  exact ⟨before, after, rfl, rfl, rfl, rfl⟩

namespace Position
variable {p q r : Position}

/-- The position comes first in the order of lines, and of columns on one line. -/
def Precedes (p q : Position) : Prop := p.line < q.line ∨ p.line = q.line ∧ p.column < q.column

theorem Precedes.trans (hpq : p.Precedes q) (hqr : q.Precedes r) : p.Precedes r := by
  unfold Precedes at *
  omega

theorem Precedes.ne (h : p.Precedes q) : p ≠ q := by
  rintro rfl
  unfold Precedes at h
  omega

theorem precedes_advance (p : Position) (c : Char) : p.Precedes (p.advance c) := by
  unfold advance
  split
  · exact .inl (Nat.lt_succ_self _)
  · exact .inr ⟨rfl, Nat.lt_succ_self _⟩

/-- Reading on leads to a later position. -/
theorem precedes_after (p : Position) {text : List Char} (h : text ≠ []) : p.Precedes (p.after text) := by
  induction text generalizing p with
  | nil => exact absurd rfl h
  | cons c cs ih =>
    rw [after_cons]
    by_cases hcs : cs = []
    · subst hcs
      exact p.precedes_advance c
    · exact (p.precedes_advance c).trans (ih _ hcs)

/-- The position counts lines by the line feeds in front of the offset, and columns from the last
of them on: characters if the offset lies between two, and bytes if it lies inside one. -/
structure Exact (source : List Char) (offset : Nat) (p : Position) : Prop where
  line : p.line = 1 + ((bytes source).take offset).count lineFeed
  between : IsBoundary source offset → IsPositionOf source offset p
  inside : ¬IsBoundary source offset →
    p.column = 1 + lengthBehind lineFeed ((bytes source).take offset)

end Position

/-- What an index says of the offsets of its source. An offset behind the end stands for the
end. -/
structure LineIndex.Exact (source : List Char) : Prop where
  position : ∀ offset, ∃ p, (ofSource source).position? offset = some p ∧
    p.Exact source (min offset (byteSize source))
  ordered : ∀ m n, IsBoundary source m → IsBoundary source n → m < n →
    ∃ p q, (ofSource source).position? m = some p ∧ (ofSource source).position? n = some q ∧
      p.Precedes q
  injective : ∀ m n, IsBoundary source m → IsBoundary source n →
    (ofSource source).position? m = (ofSource source).position? n → m = n

namespace Position
variable {source : List Char} {m n : Nat}

theorem ofOffset_exact (source : List Char) (offset : Nat) :
    (ofOffset source offset).Exact source (min offset (byteSize source)) := by
  obtain ⟨lines, line, inside, h⟩ := exists_cut (Nat.min_le_right offset (byteSize source))
  constructor
  · rw [ofOffset_of_cut h, h.count_bytes, Nat.add_comm]
  · intro hboundary
    have hposition := hboundary.isPositionOf
    rwa [ofOffset_min] at hposition
  · intro hboundary
    rw [h.isBoundary_iff] at hboundary
    rw [ofOffset_of_cut h, h.lengthBehind_bytes, if_neg hboundary]
    exact Nat.add_comm ..

/-- Of two offsets between characters the first has the first position. -/
theorem ofOffset_precedes (hm : IsBoundary source m) (hn : IsBoundary source n) (h : m < n) :
    (ofOffset source m).Precedes (ofOffset source n) := by
  obtain ⟨a, b, rfl, rfl⟩ := hm
  obtain ⟨c, d, hsource, rfl⟩ := hn
  obtain ⟨mid, rfl, rfl⟩ | ⟨mid, rfl, rfl⟩ := List.append_eq_append_iff.mp hsource
  · have hmid : mid ≠ [] := by
      rintro rfl
      simp at h
    rw [ofOffset_eq_after, hsource, ofOffset_eq_after, after_append]
    exact precedes_after _ hmid
  · rw [byteSize_append] at h
    omega

end Position

/-- The index of a source gives every offset its position, later offsets later positions, and no
two offsets between characters the same one. -/
theorem lineIndex_exact (source : List Char) : LineIndex.Exact source := by
  have hposition := Position.position?_eq_some_ofOffset source
  constructor
  · intro offset
    exact ⟨_, hposition offset, Position.ofOffset_exact source offset⟩
  · intro m n hm hn h
    exact ⟨_, _, hposition m, hposition n, Position.ofOffset_precedes hm hn h⟩
  · intro m n hm hn h
    rw [hposition m, hposition n, Option.some_inj] at h
    obtain hlt | heq | hlt := Nat.lt_trichotomy m n
    · exact absurd h (Position.ofOffset_precedes hm hn hlt).ne
    · exact heq
    · exact absurd h.symm (Position.ofOffset_precedes hn hm hlt).ne

namespace Lexer
variable {source : List Char} {s : Lexer}

/-- A step carries the position over the text that it reads. -/
theorem step_position (s : Lexer) (l : Lexeme) : ∃ text,
    l.text ++ l.rest = text ++ (s.step l).2.rest ∧
      (s.step l).2.offset = s.offset + byteSize text ∧
      (s.step l).2.position = s.position.after text := by
  unfold step
  repeat' split
  all_goals first
    | exact ⟨l.text, rfl, rfl, rfl⟩
    | exact ⟨l.toLineEnd.text, l.toLineEnd_split.symm, rfl, rfl⟩

/-- What has been read leads to the place where the lexer stands. -/
def Stands (s : Lexer) (source : List Char) : Prop :=
  ∃ before, source = before ++ s.rest ∧ byteSize before = s.offset ∧
    s.position = Position.origin.after before

theorem Stands.position_eq (h : s.Stands source) :
    s.position = Position.ofOffset source s.offset := by
  obtain ⟨before, rfl, hsize, hposition⟩ := h
  rw [hposition, ← hsize, Position.ofOffset_eq_after]

theorem Stands.step {c : Char} {cs : List Char} (h : s.Stands source) (hr : s.rest = c :: cs) :
    (s.step (Lexeme.scan c cs)).2.Stands source := by
  obtain ⟨before, hsource, hsize, hposition⟩ := h
  obtain ⟨text, hsplit, hoffset, hafter⟩ := s.step_position (Lexeme.scan c cs)
  rw [Lexeme.scan_split, ← hr] at hsplit
  refine ⟨before ++ text, ?_, ?_, ?_⟩
  · rw [hsource, hsplit, List.append_assoc]
  · rw [byteSize_append, hsize, hoffset]
  · rw [hafter, hposition, Position.after_append]

theorem pieces_position (h : s.Stands source) :
    ∀ p ∈ s.pieces, ∀ t, p.token? = some t → t.position = .ofOffset source t.span.start := by
  induction s using pieces_induction with
  | nil s hr => simp [pieces_nil hr]
  | cons s c cs hr ih =>
    rw [pieces_cons hr]
    refine List.forall_mem_cons.mpr ⟨fun t ht => ?_, ih (h.step hr)⟩
    obtain ⟨k, -, rfl, -⟩ := step_token ht
    exact h.position_eq

end Lexer

/-- The position of a token is the one that the index has for its first byte. -/
theorem lex_token_position (source : String) :
    ∀ t ∈ (lex source).tokens, t.position = .ofOffset source.toList t.span.start := by
  intro t ht
  obtain ⟨p, hp, hpt⟩ := List.mem_filterMap.mp ht
  exact Lexer.pieces_position ⟨[], rfl, rfl, rfl⟩ p hp t hpt

end PickSyntax
