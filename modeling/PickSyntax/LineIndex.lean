import PickSyntax.Position

/-!
# Lines of a source

An index holds the byte offsets at which the lines of a source start. The line of an offset is
found by a binary search among them, and its column by counting the characters of the line up to
it. Two offsets are not character boundaries of the source: one behind the end stands for the
end, and one inside a character gets the column that counts the bytes of its line.

A search may point in front of the first line, a line may be asked for that is not there, and a
difference may fall below zero; `position?` has no result then. For the index of a source none
of this happens (`position?_of_cut`), so `Position.ofOffset` has an answer for every offset.
-/
namespace PickSyntax

/-- The characters before a byte offset and the others, unless the offset lies inside a character
or behind the text. -/
def splitBytes? (offset : Nat) : List Char → Option (List Char × List Char)
  | [] => if offset = 0 then some ([], []) else none
  | c :: cs =>
    if offset = 0 then some ([], c :: cs)
    else if offset < c.utf8Size then none
    else (splitBytes? (offset - c.utf8Size) cs).map fun (a, b) => (c :: a, b)

/-- The characters between two byte offsets, if the text can be cut there. -/
def slice? (start stop : Nat) (text : List Char) : Option (List Char) :=
  if start ≤ stop then
    (splitBytes? start text).bind fun (_, rest) => (splitBytes? (stop - start) rest).map Prod.fst
  else none

@[simp] theorem splitBytes?_zero (text : List Char) : splitBytes? 0 text = some ([], text) := by
  cases text <;> simp [splitBytes?]

theorem splitBytes?_append (a b : List Char) : splitBytes? (byteSize a) (a ++ b) = some (a, b) := by
  induction a with
  | nil => exact splitBytes?_zero b
  | cons c cs ih =>
    have hpos := c.utf8Size_pos
    rw [List.cons_append, byteSize_cons, splitBytes?, if_neg (by omega), if_neg (by omega),
      Nat.add_sub_cancel_left, ih]
    rfl

/-- A text cannot be cut inside a character. -/
theorem splitBytes?_inside {c : Char} {k : Nat} (hk : 0 < k) (hc : k < c.utf8Size)
    (a b : List Char) : splitBytes? (byteSize a + k) (a ++ c :: b) = none := by
  induction a with
  | nil => simp [splitBytes?, hc, Nat.ne_of_gt hk]
  | cons d ds ih =>
    have hpos := d.utf8Size_pos
    rw [List.cons_append, byteSize_cons, Nat.add_assoc, splitBytes?, if_neg (by omega),
      if_neg (by omega), Nat.add_sub_cancel_left, ih]
    rfl

/-- Looks for a value in an increasing array from index `lo` on, before index `hi`. The result is
its index, or else the index where it would have to be put in. -/
@[semireducible]
def search (xs : Array Nat) (x lo hi : Nat) (h : hi ≤ xs.size) : Except Nat Nat :=
  if hlt : lo < hi then
    let mid := lo + (hi - lo) / 2
    if xs[mid] = x then .ok mid
    else if xs[mid] < x then search xs x (mid + 1) hi h
    else search xs x lo mid (by omega)
  else .error lo
termination_by hi - lo

/-- The search ends at the last value that is not above the one looked for, or right behind it. -/
theorem search_of_last {xs : Array Nat} {x lo hi p : Nat} {h : hi ≤ xs.size} (hp : p < xs.size)
    (hle : xs[p] ≤ x) (hbelow : ∀ i (hi : i < xs.size), i < p → xs[i] < x)
    (habove : ∀ i (hi : i < xs.size), p < i → x < xs[i]) (hlo : lo ≤ p + 1) (hhi : p < hi) :
    search xs x lo hi h = .ok p ∨ search xs x lo hi h = .error (p + 1) := by
  fun_induction search xs x lo hi h with
  | case1 lo hi h hlt mid heq =>
    have hmid : mid < xs.size := by omega
    obtain hmp | hmp | hmp := Nat.lt_trichotomy mid p
    · have := hbelow mid hmid hmp
      omega
    · exact .inl (hmp ▸ rfl)
    · have := habove mid hmid hmp
      omega
  | case2 lo hi h hlt mid hne hless ih =>
    have hmp : mid ≤ p := Nat.le_of_not_lt fun hmp => by
      have := habove mid (by omega) hmp
      omega
    exact ih (Nat.succ_le_succ hmp) hhi
  | case3 lo hi h hlt mid hne hless ih =>
    have hmp : ¬mid < p := fun hmp => hless (hbelow mid (by omega) hmp)
    have hmp' : mid ≠ p := fun hmp => by
      subst hmp
      omega
    exact ih hlo (by omega)
  | case4 lo hi h hlt => exact .inr (by rw [show lo = p + 1 by omega])

/-- The search in a list that is divided at such a value. -/
theorem search_append {before after : List Nat} {x y : Nat} (hy : y ≤ x)
    (hbefore : ∀ n ∈ before, n < x) (hafter : ∀ n ∈ after, x < n) :
    let xs := (before ++ y :: after).toArray
    search xs x 0 xs.size (Nat.le_refl _) = .ok before.length ∨
      search xs x 0 xs.size (Nat.le_refl _) = .error (before.length + 1) := by
  refine search_of_last (p := before.length) (by simp) (by simpa using hy) ?_ ?_ (Nat.zero_le _)
    (by simp)
  · intro i _ hlt
    simpa [List.getElem_append_left hlt] using hbefore _ (List.getElem_mem hlt)
  · intro i hi hlt
    obtain ⟨j, rfl⟩ := Nat.exists_eq_add_of_lt hlt
    have hj : j < after.length := by
      simp at hi
      omega
    simpa [List.getElem_append_right, Nat.add_assoc] using hafter _ (List.getElem_mem hj)

/-- The offsets behind the line feeds of a text that stands at `offset`. -/
def lineEnds (offset : Nat) : List Char → List Nat
  | [] => []
  | c :: cs =>
    if c = '\n' then (offset + c.utf8Size) :: lineEnds (offset + c.utf8Size) cs
    else lineEnds (offset + c.utf8Size) cs

structure LineIndex where
  /-- The byte offsets at which the lines start. -/
  lineStarts : Array Nat
  source : List Char

/-- The difference, unless it falls below zero. -/
def sub? (a b : Nat) : Option Nat := if b ≤ a then some (a - b) else none

theorem sub?_add (a b : Nat) : sub? (a + b) a = some b := by
  simp [sub?]

namespace LineIndex

def ofSource (source : List Char) : LineIndex := ⟨(0 :: lineEnds 0 source).toArray, source⟩

/-- The line that an offset lies on, counted from zero. -/
def lineOf? (x : LineIndex) (offset : Nat) : Option Nat :=
  match search x.lineStarts offset 0 x.lineStarts.size (Nat.le_refl _) with
  | .ok line => some line
  | .error next => sub? next 1

/-- The position of a byte offset. -/
def position? (x : LineIndex) (offset : Nat) : Option Position := do
  let offset := min offset (byteSize x.source)
  let line ← x.lineOf? offset
  let lineStart ← x.lineStarts[line]?
  let bytes ← sub? offset lineStart
  let column := ((slice? lineStart offset x.source).map List.length).getD bytes
  return ⟨line + 1, column + 1⟩

end LineIndex

section
variable {offset n : Nat} {a b : List Char}

theorem lineEnds_append (offset : Nat) (a b : List Char) :
    lineEnds offset (a ++ b) = lineEnds offset a ++ lineEnds (offset + byteSize a) b := by
  induction a generalizing offset with
  | nil => rfl
  | cons c cs ih => by_cases hc : c = '\n' <;> simp [lineEnds, hc, ih, Nat.add_assoc]

theorem lineEnds_eq_nil (h : '\n' ∉ a) : lineEnds offset a = [] := by
  induction a generalizing offset with
  | nil => rfl
  | cons c cs ih =>
    obtain ⟨hc, hcs⟩ : '\n' ≠ c ∧ '\n' ∉ cs := by simpa using h
    rw [lineEnds, if_neg hc.symm, ih hcs]

@[simp] theorem length_lineEnds (offset : Nat) (a : List Char) :
    (lineEnds offset a).length = a.count '\n' := by
  induction a generalizing offset with
  | nil => rfl
  | cons c cs ih => by_cases hc : c = '\n' <;> simp [lineEnds, hc, ih]

/-- How many bytes there are up to the next boundary. -/
def headSize : List Char → Nat
  | [] => 1
  | c :: _ => c.utf8Size

/-- No line ends before the first character does. -/
theorem headSize_le_of_mem_lineEnds (h : n ∈ lineEnds offset a) : offset + headSize a ≤ n := by
  induction a generalizing offset with
  | nil => cases h
  | cons c cs ih =>
    have hrest (h : n ∈ lineEnds (offset + c.utf8Size) cs) : offset + c.utf8Size ≤ n :=
      Nat.le_trans (Nat.le_add_right ..) (ih h)
    unfold lineEnds at h
    split at h
    · obtain rfl | h := List.mem_cons.mp h
      · exact Nat.le_refl _
      · exact hrest h
    · exact hrest h

theorem le_of_mem_lineEnds (h : n ∈ lineEnds offset a) : n ≤ offset + byteSize a := by
  induction a generalizing offset with
  | nil => cases h
  | cons c cs ih =>
    have hrest (h : n ∈ lineEnds (offset + c.utf8Size) cs) : n ≤ offset + byteSize (c :: cs) := by
      simpa [Nat.add_assoc] using ih h
    unfold lineEnds at h
    split at h
    · obtain rfl | h := List.mem_cons.mp h
      · simp
      · exact hrest h
    · exact hrest h

/-- The starts of the lines up to one that begins behind `a`. -/
theorem exists_lineEnds_eq (h : a = [] ∨ ∃ ds, a = ds ++ ['\n']) : ∃ before,
    0 :: lineEnds 0 a = before ++ [byteSize a] ∧ before.length = a.count '\n' ∧
      ∀ n ∈ before, n < byteSize a := by
  obtain rfl | ⟨ds, rfl⟩ := h
  · exact ⟨[], rfl, rfl, nofun⟩
  have hsize : byteSize (ds ++ ['\n']) = byteSize ds + 1 := byteSize_append ds ['\n']
  refine ⟨0 :: lineEnds 0 ds, by simp [lineEnds_append, lineEnds], by simp, fun n hn => ?_⟩
  rw [hsize]
  obtain rfl | hn := List.mem_cons.mp hn
  · exact Nat.succ_pos _
  · have := le_of_mem_lineEnds hn
    omega

/-- The offset lies on the line that begins behind `lines`, `inside` bytes behind the end of
`line`: these are bytes of the next character. -/
structure Cut (source : List Char) (offset : Nat) (lines line : List Char) (inside : Nat) :
    Prop where
  source : ∃ rest, source = lines ++ (line ++ rest) ∧ inside < headSize rest
  ended : lines = [] ∨ ∃ ds, lines = ds ++ ['\n']
  unbroken : '\n' ∉ line
  offset : offset = byteSize lines + (byteSize line + inside)

theorem exists_cut {source : List Char} (h : offset ≤ byteSize source) :
    ∃ lines line inside, Cut source offset lines line inside := by
  induction source generalizing offset with
  | nil =>
    rw [byteSize_nil, Nat.le_zero] at h
    exact ⟨[], [], 0, ⟨[], rfl, Nat.one_pos⟩, .inl rfl, nofun, h⟩
  | cons c cs ih =>
    by_cases hc : offset < c.utf8Size
    · exact ⟨[], [], offset, ⟨c :: cs, rfl, hc⟩, .inl rfl, nofun, by simp⟩
    have hle : offset - c.utf8Size ≤ byteSize cs := by
      rw [byteSize_cons] at h
      omega
    obtain ⟨lines, line, inside, ⟨rest, rfl, hrest⟩, hended, hline, hoffset⟩ := ih hle
    have hback : offset = c.utf8Size + (byteSize lines + (byteSize line + inside)) := by omega
    obtain rfl | ⟨ds, rfl⟩ := hended
    · -- The character is the first of the line that goes on behind it, or a line of its own.
      by_cases hne : c = '\n'
      · subst hne
        exact ⟨['\n'], line, inside, ⟨rest, rfl, hrest⟩, .inr ⟨[], rfl⟩, hline, by simpa using hback⟩
      · refine ⟨[], c :: line, inside, ⟨rest, rfl, hrest⟩, .inl rfl, ?_, ?_⟩
        · simpa [Ne.symm hne] using hline
        · rw [byteSize_cons]
          rw [byteSize_nil] at hback ⊢
          omega
    · refine ⟨c :: (ds ++ ['\n']), line, inside, ⟨rest, rfl, hrest⟩, .inr ⟨c :: ds, rfl⟩, hline, ?_⟩
      rw [byteSize_cons, Nat.add_assoc]
      exact hback

end

namespace LineIndex
variable {source lines line : List Char} {offset inside : Nat}

theorem lineOf?_of_cut (h : Cut source offset lines line inside) :
    (ofSource source).lineOf? offset = some (lines.count '\n') ∧
      (ofSource source).lineStarts[lines.count '\n']? = some (byteSize lines) := by
  obtain ⟨⟨rest, rfl, hrest⟩, hended, hunbroken, rfl⟩ := h
  obtain ⟨before, hstarts, hlength, hbefore⟩ := exists_lineEnds_eq hended
  have hsplit : (ofSource (lines ++ (line ++ rest))).lineStarts =
      (before ++ byteSize lines :: lineEnds (byteSize lines + byteSize line) rest).toArray := by
    rw [ofSource, lineEnds_append, lineEnds_append, lineEnds_eq_nil hunbroken, ← List.cons_append,
      hstarts, Nat.zero_add]
    simp
  refine ⟨?_, by simp [hsplit, ← hlength]⟩
  have hafter : ∀ n ∈ lineEnds (byteSize lines + byteSize line) rest,
      byteSize lines + (byteSize line + inside) < n := fun n hn => by
    have := headSize_le_of_mem_lineEnds hn
    omega
  have hfound := search_append (Nat.le_add_right ..)
    (fun n hn => Nat.lt_add_right _ (hbefore n hn)) hafter
  rw [← hsplit, hlength] at hfound
  obtain hfound | hfound := hfound <;> simp [lineOf?, hfound, sub?]

theorem slice?_of_cut (h : Cut source offset lines line inside) :
    slice? (byteSize lines) offset source = if inside = 0 then some line else none := by
  obtain ⟨⟨rest, rfl, hrest⟩, -, -, rfl⟩ := h
  rw [slice?, if_pos (Nat.le_add_right ..), splitBytes?_append, Option.bind_some,
    Nat.add_sub_cancel_left]
  by_cases hzero : inside = 0
  · simp [hzero, splitBytes?_append]
  · cases rest with
    | nil => exact absurd (Nat.lt_one_iff.mp hrest) hzero
    | cons c cs => simp [hzero, splitBytes?_inside (Nat.pos_of_ne_zero hzero) hrest]

/-- The position of an offset from where it lies. -/
theorem position?_of_cut (h : Cut source (min offset (byteSize source)) lines line inside) :
    (ofSource source).position? offset = some ⟨lines.count '\n' + 1,
      (if inside = 0 then line.length else byteSize line + inside) + 1⟩ := by
  obtain ⟨hline, hstart⟩ := lineOf?_of_cut h
  have hsource : (ofSource source).source = source := rfl
  have hbytes : sub? (min offset (byteSize source)) (byteSize lines) =
      some (byteSize line + inside) := by
    rw [h.offset, sub?_add]
  simp only [position?, hsource, hline, hstart, slice?_of_cut h, hbytes, Option.bind_eq_bind,
    Option.bind_some]
  split <;> rfl

theorem isSome_position? (source : List Char) (offset : Nat) :
    ((ofSource source).position? offset).isSome = true := by
  obtain ⟨lines, line, inside, h⟩ := exists_cut (Nat.min_le_right offset (byteSize source))
  rw [position?_of_cut h]
  rfl

end LineIndex

namespace Position

/-- The position of a byte offset of the source. -/
def ofOffset (source : List Char) (offset : Nat) : Position :=
  ((LineIndex.ofSource source).position? offset).get (LineIndex.isSome_position? source offset)

theorem position?_eq_some_ofOffset (source : List Char) (offset : Nat) :
    (LineIndex.ofSource source).position? offset = some (ofOffset source offset) :=
  (Option.some_get _).symm

theorem ofOffset_of_cut {source lines line : List Char} {offset inside : Nat}
    (h : Cut source (min offset (byteSize source)) lines line inside) :
    ofOffset source offset = ⟨lines.count '\n' + 1,
      (if inside = 0 then line.length else byteSize line + inside) + 1⟩ :=
  Option.get_of_eq_some _ (LineIndex.position?_of_cut h)

/-- An offset behind the source stands for its end. -/
theorem ofOffset_min (source : List Char) (offset : Nat) :
    ofOffset source (min offset (byteSize source)) = ofOffset source offset := by
  obtain ⟨lines, line, inside, h⟩ := exists_cut (Nat.min_le_right offset (byteSize source))
  have hmin : min (min offset (byteSize source)) (byteSize source) = min offset (byteSize source) :=
    Nat.min_eq_left (Nat.min_le_right ..)
  rw [ofOffset_of_cut h, ofOffset_of_cut (hmin.symm ▸ h)]

end Position

end PickSyntax
