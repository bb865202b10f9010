import Mathlib
import PickSyntax.Lexeme

/-!
# The shapes of lexemes

A scanner reads a run of characters and stops at the first that does not belong to it. Here
each scanner is described by what it has read: its result where the text and what stands
behind it are known.
-/
namespace PickSyntax

/-- The kinds of lexemes that begin with a character of the class. -/
inductive CharClass.Yields : CharClass → LexemeKind → Prop
  | blank : Yields .blank .blank
  | newline : Yields .newline .newline
  | continuation : Yields .ampersand .continuation
  | ampersand : Yields .ampersand .ampersand
  | remark : Yields .bang .remark
  | word : Yields .letter .word
  | number : Yields .digit .number
  | fraction : Yields .point .number
  | point (c : Char) : Yields .point (.invalid c)
  | string (q : Quote) : Yields (.quote q) (.string q)
  | openString (q : Quote) : Yields (.quote q) (.openString q)
  | brokenString (q : Quote) (c : Char) : Yields (.quote q) (.invalid c)
  | symbol (y : Symbol) : Yields (.symbol y) (.symbol y)
  | systemName (y : Symbol) : Yields (.symbol y) .systemName
  | other (c : Char) : Yields .other (.invalid c)

namespace Lexeme
variable {k : LexemeKind} {p : Char → Bool} {c d : Char} {cs ds rest : List Char}

theorem takeWhile_stop (hcs : ∀ d ∈ cs, p d = true) (hr : ∀ d ∈ rest.head?, p d = false) :
    (cs ++ rest).takeWhile p = cs ∧ (cs ++ rest).dropWhile p = rest := by
  rw [List.takeWhile_append_of_pos hcs, List.dropWhile_append_of_pos hcs]
  cases rest with
  | nil => simp
  | cons d ds => simp [hr d rfl]

theorem dropWhile_stop (p : Char → Bool) (cs : List Char) :
    ∀ d ∈ (cs.dropWhile p).head?, p d = false := by
  intro d hd
  have := List.head?_dropWhile_not p cs
  rw [hd] at this
  simpa using this

theorem of_mem_takeWhile (p : Char → Bool) (cs : List Char) : ∀ d ∈ cs.takeWhile p, p d = true :=
  fun _ hd => List.mem_takeWhile_imp hd

theorem not_mem_takeWhile (h : p d = false) (cs : List Char) : d ∉ cs.takeWhile p := by
  intro hd
  rw [of_mem_takeWhile p cs d hd] at h
  cases h

theorem run_stop (hcs : ∀ d ∈ cs, p d = true) (hr : ∀ d ∈ rest.head?, p d = false) :
    run k p c (cs ++ rest) = ⟨k, c :: cs, rest⟩ := by
  rw [run, (takeWhile_stop hcs hr).1, (takeWhile_stop hcs hr).2]

/-- Digits and a point behind them. -/
theorem number_point (h : cs.dropWhile Char.isDigit = '.' :: ds) :
    number c cs = ⟨.number, c :: (cs.takeWhile Char.isDigit ++ '.' :: ds.takeWhile Char.isDigit),
      ds.dropWhile Char.isDigit⟩ := by
  simp only [number, h, List.cons_append]

/-- Digits alone. -/
theorem number_run (h : ∀ d ∈ (cs.dropWhile Char.isDigit).head?, d ≠ '.') :
    number c cs = run .number Char.isDigit c cs := by
  unfold number
  split
  next ds hd => exact absurd rfl (h '.' (by rw [hd]; rfl))
  next => rfl

theorem number_digits (hcs : ∀ d ∈ cs, d.isDigit = true)
    (hr : ∀ d ∈ rest.head?, d.isDigit = false ∧ d ≠ '.') :
    number c (cs ++ rest) = ⟨.number, c :: cs, rest⟩ := by
  have hstop : ∀ d ∈ rest.head?, d.isDigit = false := fun d hd => (hr d hd).1
  rw [number_run (by rw [(takeWhile_stop hcs hstop).2]; exact fun d hd => (hr d hd).2)]
  exact run_stop hcs hstop

theorem number_decimal (hcs : ∀ d ∈ cs, d.isDigit = true) (hds : ∀ d ∈ ds, d.isDigit = true)
    (hr : ∀ d ∈ rest.head?, d.isDigit = false) :
    number c (cs ++ '.' :: (ds ++ rest)) = ⟨.number, c :: (cs ++ '.' :: ds), rest⟩ := by
  have hpoint : ∀ d ∈ ('.' :: (ds ++ rest)).head?, d.isDigit = false := by simp
  obtain ⟨htake, hdrop⟩ := takeWhile_stop hcs hpoint
  rw [number_point hdrop, htake, (takeWhile_stop hds hr).1, (takeWhile_stop hds hr).2]

theorem point_digit (h : d.isDigit = true) (ds : List Char) :
    point c (d :: ds) = run .number Char.isDigit c (d :: ds) := by
  simp [point, h]

theorem point_single (h : ∀ d ∈ cs.head?, d.isDigit = false) :
    point c cs = single (.invalid c) c cs := by
  cases cs with
  | nil => rfl
  | cons d ds => simp [point, h d rfl]

theorem symbol_name (h : d.isAlpha = true) (ds : List Char) : symbol .atSign c (d :: ds) =
    ⟨.systemName, c :: d :: ds.takeWhile isSystemNameChar, ds.dropWhile isSystemNameChar⟩ := by
  simp [symbol, h]

theorem symbol_single {y : Symbol} (h : y = .atSign → ∀ d ∈ rest.head?, d.isAlpha = false) :
    symbol y c rest = ⟨.symbol y, [c], rest⟩ := by
  unfold symbol
  split
  next d ds =>
    rw [h rfl d rfl]
    rfl
  next => rfl

section
variable {q : Quote}

theorem quoted_closed (h : ∀ d ∈ cs, isInside q d = true) :
    quoted q c (cs ++ q.char :: rest) = ⟨.string q, c :: (cs ++ [q.char]), rest⟩ := by
  have hclose : ∀ d ∈ (q.char :: rest).head?, isInside q d = false := by simp [isInside]
  unfold quoted
  rw [(takeWhile_stop h hclose).1, (takeWhile_stop h hclose).2]
  simp

/-- Where the run inside a string does not end at the end of its line, it ends at a delimiter. -/
theorem exists_delimiter (h : ¬∀ d ∈ (cs.dropWhile (isInside q)).head?, d ≠ q.char) :
    ∃ ds, cs = cs.takeWhile (isInside q) ++ q.char :: ds := by
  obtain ⟨d, hd, hclose⟩ : ∃ d ∈ (cs.dropWhile (isInside q)).head?, d = q.char := by
    simpa using h
  obtain ⟨ds, hds⟩ := List.head?_eq_some_iff.mp hd
  exact ⟨ds, by rw [← hclose, ← hds, List.takeWhile_append_dropWhile]⟩

/-- A string without its closing delimiter goes to the end of its line. -/
theorem quoted_unclosed (h : ∀ d ∈ (cs.dropWhile (isInside q)).head?, d ≠ q.char) :
    quoted q c cs =
      ⟨if (cs.takeWhile (isInside q)).contains '\r' then .invalid c else .openString q,
      c :: cs.takeWhile (isInside q), cs.dropWhile (isInside q)⟩ := by
  unfold quoted
  split
  next d ds hd =>
    have hne : ¬(d == q.char) = true := by
      rw [beq_iff_eq]
      exact h d (by rw [hd]; rfl)
    rw [if_neg hne, hd]
  next hnil => rw [hnil]

end
/-- The class of the first character decides the kind of a lexeme. -/
theorem scan_yields (c : Char) (cs : List Char) : (CharClass.of c).Yields (scan c cs).kind := by
  cases hclass : CharClass.of c <;> simp only [scan, hclass]
  case blank => exact .blank
  case newline => exact .newline
  case bang => exact .remark
  case letter => exact .word
  case other => exact .other c
  case ampersand =>
    unfold ampersand
    split
    · exact .continuation
    · exact .continuation
    · exact .ampersand
  case digit =>
    unfold number
    split <;> exact .number
  case point =>
    unfold point
    repeat' split
    · exact .fraction
    · exact .point c
    · exact .point c
  case symbol y =>
    unfold symbol
    repeat' split
    · exact .systemName _
    · exact .symbol _
    · exact .symbol _
  case quote q =>
    by_cases h : ∀ d ∈ (cs.dropWhile (isInside q)).head?, d ≠ q.char
    · rw [quoted_unclosed h]
      dsimp only
      split
      · exact .brokenString q c
      · exact .openString q
    · obtain ⟨ds, hds⟩ := exists_delimiter h
      rw [hds, quoted_closed (of_mem_takeWhile (isInside q) cs)]
      exact .string q

/-- Only a line feed is one. -/
theorem eq_lineFeed (h : (scan c cs).kind = .newline) : c = '\n' := by
  have hyields := scan_yields c cs
  rw [h] at hyields
  generalize hclass : CharClass.of c = kind at hyields
  cases hyields
  unfold CharClass.of at hclass
  split at hclass
  · cases hclass
  split at hclass
  · exact beq_iff_eq.mp ‹_›
  repeat' split at hclass
  all_goals cases hclass

end Lexeme
end PickSyntax
