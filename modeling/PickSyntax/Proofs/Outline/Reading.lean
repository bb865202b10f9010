import PickSyntax.Proofs.Outline.Writing

/-!
# Reading an outline back

A symbolic expression that is plain can be read back from its text, so the text of a program
says what its outline is and nothing less. The reader follows the notation: a parenthesis opens
a node, a double quote an operator, and anything else has to be the label of a child. It goes on
by reading characters, and never needs more steps than there are.

The main statement says of every program that the line written for it is the rendering of its
outline, that the parentheses in it balance, and that the outline is read back from it.
-/
namespace PickSyntax
namespace Sexp

mutual

/-- Reads one child off the front of a text, in less than `n` steps. -/
def child? : (n : Nat) → List Char → Option (Sexp × List Char)
  | n + 1, c :: cs =>
    if c = '(' then
      match children? n (cs.dropWhile isNameChar) with
      | some (children, ')' :: rest) =>
        some (.node (String.ofList (cs.takeWhile isNameChar)) children, rest)
      | _ => none
    else if c = '"' then
      match cs.dropWhile (· != '"') with
      | _ :: rest => some (.quoted (String.ofList (cs.takeWhile (· != '"'))), rest)
      | [] => none
    else
      match (c :: cs).dropWhile isNameChar with
      | ':' :: ' ' :: rest =>
        (child? n rest).map fun (x, rest) =>
          (.labelled (String.ofList ((c :: cs).takeWhile isNameChar)) x, rest)
      | _ => none
  | _, _ => none

/-- Reads children as long as there are blanks before them. -/
def children? : (n : Nat) → List Char → Option (List Sexp × List Char)
  | n + 1, ' ' :: cs =>
    match child? n cs with
    | some (x, rest) => (children? n rest).map fun (xs, rest) => (x :: xs, rest)
    | none => none
  | _ + 1, cs => some ([], cs)
  | 0, _ => none

end

/-- The symbolic expression that a text writes. -/
def read? (text : String) : Option Sexp :=
  match child? (text.toList.length + 1) text.toList with
  | some (x, []) => some x
  | _ => none

/-- The number of parentheses that are open behind a text, if `depth` are open before it. There
is none where a parenthesis closes nothing or a quote stays open. Parentheses between quotes do
not count. -/
def nesting : (inside : Bool) → (depth : Nat) → List Char → Option Nat
  | inside, depth, [] => if inside then none else some depth
  | inside, depth, c :: cs =>
    if c = '"' then nesting (!inside) depth cs
    else if inside then nesting true depth cs
    else if c = '(' then nesting false (depth + 1) cs
    else if c = ')' then if depth = 0 then none else nesting false (depth - 1) cs
    else nesting false depth cs

/-- The parentheses outside of quotes balance. -/
def Balanced (text : String) : Prop := nesting false 0 text.toList = some 0

section Words
variable {text : String} (h : isWord text = true)
include h

theorem of_mem_word : ∀ c ∈ text.toList, isNameChar c = true := by
  simp only [isWord, Bool.and_eq_true] at h
  exact List.all_eq_true.mp h.2

theorem word_ne_nil : text.toList ≠ [] := by
  simp only [isWord, Bool.and_eq_true] at h
  simpa using h.1

theorem takeWhile_word (rest : List Char) (hr : ∀ c ∈ rest.head?, isNameChar c = false) :
    (text.toList ++ rest).takeWhile isNameChar = text.toList ∧
      (text.toList ++ rest).dropWhile isNameChar = rest := by
  rw [List.takeWhile_append_of_pos (of_mem_word h), List.dropWhile_append_of_pos (of_mem_word h)]
  cases rest with
  | nil => simp
  | cons c cs => simp [hr c rfl]

end Words

theorem takeWhile_quoted {text : String} (h : '"' ∉ text.toList) (rest : List Char) :
    (text.toList ++ '"' :: rest).takeWhile (· != '"') = text.toList ∧
      (text.toList ++ '"' :: rest).dropWhile (· != '"') = '"' :: rest := by
  have hall : ∀ c ∈ text.toList, (c != '"') = true := by
    intro c hc
    simp only [bne_iff_ne, ne_eq]
    rintro rfl
    exact h hc
  rw [List.takeWhile_append_of_pos hall, List.dropWhile_append_of_pos hall]
  simp

section Texts
variable (name label text : String) (x : Sexp) (xs : List Sexp) (rest : List Char)

theorem node_text : (render (.node name xs)).toList ++ rest =
    '(' :: (name.toList ++ ((renderChildren xs).toList ++ ')' :: rest)) := by
  simp [render]

theorem labelled_text : (render (.labelled label x)).toList ++ rest =
    label.toList ++ (':' :: ' ' :: (x.render.toList ++ rest)) := by
  simp [render]

theorem quoted_text : (render (.quoted text)).toList ++ rest =
    '"' :: (text.toList ++ '"' :: rest) := by
  simp [render]

theorem children_text : (renderChildren (x :: xs)).toList ++ rest =
    ' ' :: (x.render.toList ++ ((renderChildren xs).toList ++ rest)) := by
  simp [renderChildren]

end Texts

/-- Behind the name of a node stands a blank or the closing parenthesis. -/
theorem head_children (xs : List Sexp) (rest : List Char) :
    ∀ c ∈ ((renderChildren xs).toList ++ ')' :: rest).head?, isNameChar c = false := by
  cases xs <;> simp [renderChildren, isNameChar]

mutual

theorem child?_render : ∀ (x : Sexp), x.plain = true → ∀ (n : Nat) (rest : List Char),
    x.render.toList.length < n → child? n (x.render.toList ++ rest) = some (x, rest)
  | .node name children, hx, n + 1, rest, hn => by
    simp only [plain, Bool.and_eq_true] at hx
    have hlength : (renderChildren children).toList.length < n := by
      simp only [render, String.toList_append, List.length_append] at hn
      have h₁ : "(".toList.length = 1 := by decide
      have h₂ : ")".toList.length = 1 := by decide
      omega
    obtain ⟨htake, hdrop⟩ := takeWhile_word hx.1 _ (head_children children rest)
    have hread := children?_render children hx.2 n (')' :: rest) (by simp) hlength
    rw [node_text, child?, if_pos rfl, htake, hdrop, hread]
    simp
  | .labelled label child, hx, n + 1, rest, hn => by
    simp only [plain, Bool.and_eq_true] at hx
    have hlength : child.render.toList.length < n := by
      simp only [render, String.toList_append, List.length_append] at hn
      have h₁ : ": ".toList.length = 2 := by decide
      omega
    obtain ⟨htake, hdrop⟩ := takeWhile_word hx.1 (':' :: ' ' :: (child.render.toList ++ rest))
      (by simp [isNameChar])
    have hread := child?_render child hx.2 n rest hlength
    obtain ⟨c, cs, hcs⟩ := List.exists_cons_of_ne_nil (word_ne_nil hx.1)
    have hc : isNameChar c = true := of_mem_word hx.1 c (by simp [hcs])
    have hopen : c ≠ '(' ∧ c ≠ '"' := by
      refine ⟨?_, ?_⟩ <;> rintro rfl <;> revert hc <;> decide
    rw [hcs] at htake hdrop
    rw [labelled_text, hcs, List.cons_append, child?, if_neg hopen.1, if_neg hopen.2]
    rw [← List.cons_append, htake, hdrop]
    simp [hread, ← hcs]
  | .quoted text, hx, n + 1, rest, _ => by
    have hquote : '"' ∉ text.toList := by simpa [plain] using hx
    obtain ⟨htake, hdrop⟩ := takeWhile_quoted hquote rest
    rw [quoted_text, child?, if_neg (by decide), if_pos rfl, htake, hdrop]
    simp
  | _, _, 0, _, hn => absurd hn (Nat.not_lt_zero _)

theorem children?_render : ∀ (xs : List Sexp), plainAll xs = true →
    ∀ (n : Nat) (rest : List Char), rest.head? ≠ some ' ' →
      (renderChildren xs).toList.length < n →
      children? n ((renderChildren xs).toList ++ rest) = some (xs, rest)
  | [], _, n + 1, rest, hr, _ => by
    have htext : (renderChildren []).toList ++ rest = rest := by simp [renderChildren]
    rw [htext]
    cases rest with
    | nil => rfl
    | cons c cs =>
      have hc : c ≠ ' ' := by simpa using hr
      simp [children?, hc]
  | x :: xs, hx, n + 1, rest, hr, hn => by
    simp only [plainAll, Bool.and_eq_true] at hx
    have hlength : x.render.toList.length < n ∧ (renderChildren xs).toList.length < n := by
      simp only [renderChildren, String.toList_append, List.length_append] at hn
      have h₁ : " ".toList.length = 1 := by decide
      omega
    rw [children_text, children?, child?_render x hx.1 n _ hlength.1]
    simp [children?_render xs hx.2 n rest hr hlength.2]
  | _, _, 0, _, _, hn => absurd hn (Nat.not_lt_zero _)

end

theorem read?_render {x : Sexp} (h : x.plain = true) : read? x.render = some x := by
  have hread := child?_render x h (x.render.toList.length + 1) [] (Nat.lt_succ_self _)
  rw [List.append_nil] at hread
  rw [read?, hread]

theorem nesting_names {cs : List Char} (h : ∀ c ∈ cs, isNameChar c = true) (depth : Nat)
    (rest : List Char) : nesting false depth (cs ++ rest) = nesting false depth rest := by
  induction cs with
  | nil => rfl
  | cons c cs ih =>
    have hc := h c (by simp)
    have hmarks : c ≠ '"' ∧ c ≠ '(' ∧ c ≠ ')' := by
      refine ⟨?_, ?_, ?_⟩ <;> rintro rfl <;> revert hc <;> decide
    rw [List.cons_append, nesting, if_neg hmarks.1, if_neg (by decide), if_neg hmarks.2.1,
      if_neg hmarks.2.2]
    exact ih fun d hd => h d (by simp [hd])

theorem nesting_quoted {cs : List Char} (h : '"' ∉ cs) (depth : Nat) (rest : List Char) :
    nesting true depth (cs ++ '"' :: rest) = nesting false depth rest := by
  induction cs with
  | nil => simp [nesting]
  | cons c cs ih =>
    have hc : c ≠ '"' := by
      rintro rfl
      exact h (by simp)
    rw [List.cons_append, nesting, if_neg hc, if_pos rfl]
    exact ih fun hmem => h (by simp [hmem])

mutual

/-- A plain expression closes all that it opens. -/
theorem nesting_render : ∀ (x : Sexp), x.plain = true → ∀ (depth : Nat) (rest : List Char),
    nesting false depth (x.render.toList ++ rest) = nesting false depth rest
  | .node name children, hx, depth, rest => by
    simp only [plain, Bool.and_eq_true] at hx
    calc nesting false depth ((render (.node name children)).toList ++ rest)
        = nesting false (depth + 1)
            (name.toList ++ ((renderChildren children).toList ++ ')' :: rest)) := by
          rw [node_text]; simp [nesting]
      _ = nesting false (depth + 1) ((renderChildren children).toList ++ ')' :: rest) :=
          nesting_names (of_mem_word hx.1) _ _
      _ = nesting false (depth + 1) (')' :: rest) := nesting_renderChildren children hx.2 _ _
      _ = nesting false depth rest := by simp [nesting]
  | .labelled label child, hx, depth, rest => by
    simp only [plain, Bool.and_eq_true] at hx
    calc nesting false depth ((render (.labelled label child)).toList ++ rest)
        = nesting false depth (':' :: ' ' :: (child.render.toList ++ rest)) := by
          rw [labelled_text, nesting_names (of_mem_word hx.1)]
      _ = nesting false depth (child.render.toList ++ rest) := by simp [nesting]
      _ = nesting false depth rest := nesting_render child hx.2 depth rest
  | .quoted text, hx, depth, rest => by
    have hquote : '"' ∉ text.toList := by simpa [plain] using hx
    rw [quoted_text, nesting, if_pos rfl]
    exact nesting_quoted hquote depth rest

theorem nesting_renderChildren : ∀ (xs : List Sexp), plainAll xs = true →
    ∀ (depth : Nat) (rest : List Char),
      nesting false depth ((renderChildren xs).toList ++ rest) = nesting false depth rest
  | [], _, depth, rest => by simp [renderChildren]
  | x :: xs, hx, depth, rest => by
    simp only [plainAll, Bool.and_eq_true] at hx
    calc nesting false depth ((renderChildren (x :: xs)).toList ++ rest)
        = nesting false depth (x.render.toList ++ ((renderChildren xs).toList ++ rest)) := by
          rw [children_text]; simp [nesting]
      _ = nesting false depth ((renderChildren xs).toList ++ rest) := nesting_render x hx.1 _ _
      _ = nesting false depth rest := nesting_renderChildren xs hx.2 depth rest

end

theorem balanced_render {x : Sexp} (h : x.plain = true) : Balanced x.render := by
  have hnesting := nesting_render x h 0 []
  rw [List.append_nil] at hnesting
  exact hnesting

end Sexp

open Sexp

theorem Program.read?_toSexp (p : Program) : read? p.toSexp = some p.outline := by
  rw [p.toSexp_eq_render]
  exact read?_render p.outline_plain

/-- The line that is written for a program is the plain rendering of its outline, for every
program and not only for those that are read from a source. The parentheses in it that are not
quoted balance, and the outline can be read back from it; so two programs have the same line
exactly if they have the same outline. -/
theorem toSexp_faithful :
    (∀ p : Program, p.toSexp = p.outline.render ∧ Balanced p.toSexp ∧
      read? p.toSexp = some p.outline) ∧
    ∀ p q : Program, p.toSexp = q.toSexp ↔ p.outline = q.outline := by
  refine ⟨fun p => ⟨p.toSexp_eq_render, ?_, p.read?_toSexp⟩, fun p q => ⟨fun h => ?_, fun h => ?_⟩⟩
  · rw [p.toSexp_eq_render]
    exact balanced_render p.outline_plain
  · have hread : some p.outline = some q.outline := by
      rw [← p.read?_toSexp, h, q.read?_toSexp]
    exact Option.some.inj hread
  · rw [p.toSexp_eq_render, q.toSexp_eq_render, h]

end PickSyntax
