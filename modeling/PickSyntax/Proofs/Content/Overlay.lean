import PickSyntax.Proofs.Content.Tree
import PickSyntax.Proofs.Lexing.Tokens

/-!
# Extents laid over tokens

An overlay puts extents over a list of tokens in their order. A node begins where the first of
its tokens begins and ends where the last of them ends, and its parts lie over the same tokens;
tokens may also lie bare. Since the tokens of a source stand one after the other, an overlay
nests: parts lie inside their node, and siblings do not touch each other's tokens.
-/
namespace PickSyntax

namespace Extent

mutual

/-- The extent and those below it. -/
def all : Extent → List Extent
  | ⟨span, parts⟩ => ⟨span, parts⟩ :: allOf parts

def allOf : List Extent → List Extent
  | [] => []
  | x :: xs => x.all ++ allOf xs

end

@[simp] theorem allOf_append (xs ys : List Extent) : allOf (xs ++ ys) = allOf xs ++ allOf ys := by
  induction xs with
  | nil => simp [allOf]
  | cons x xs ih => rw [List.cons_append, allOf, allOf, ih, List.append_assoc]

theorem mem_allOf {x : Extent} {xs : List Extent} (h : x ∈ xs) : x ∈ allOf xs := by
  induction xs with
  | nil => cases h
  | cons y ys ih =>
    rw [allOf]
    obtain rfl | h := List.mem_cons.mp h
    · exact List.mem_append_left _ (by cases x; simp [all])
    · exact List.mem_append_right _ (ih h)

/-- The range begins with one of the tokens and ends with the same or a later one. -/
def Spans (tokens : List Token) (x : Extent) : Prop :=
  ∃ t us u, (t :: us) <:+: tokens ∧ (t :: us).getLast? = some u ∧
    x.span = ⟨t.span.start, u.span.stop⟩

/-- The ranges are disjoint and stand in increasing order. -/
def Apart (xs : List Extent) : Prop :=
  xs.Pairwise fun x y => x.span.start < y.span.start ∧ x.span.stop ≤ y.span.start

/-- The parts lie inside the range, one after the other. -/
structure Nests (x : Extent) : Prop where
  inside : ∀ y ∈ x.parts, x.span.start ≤ y.span.start ∧ y.span.stop ≤ x.span.stop
  apart : Apart x.parts

theorem Spans.mono {ts us : List Token} {x : Extent} (h : x.Spans ts) (hi : ts <:+: us) :
    x.Spans us := by
  obtain ⟨t, vs, u, hv, hu, hx⟩ := h
  exact ⟨t, vs, u, hv.trans hi, hu, hx⟩

/-- Both ends of a range belong to tokens of the list. -/
theorem Spans.ends {tokens : List Token} {x : Extent} (h : x.Spans tokens) :
    ∃ t ∈ tokens, ∃ u ∈ tokens, x.span = ⟨t.span.start, u.span.stop⟩ := by
  obtain ⟨t, us, u, hi, hu, hx⟩ := h
  exact ⟨t, hi.subset (by simp), u, hi.subset (List.mem_of_getLast? hu), hx⟩

/-- Ranges over ordered tokens are not empty. -/
theorem Spans.start_lt_stop {offset : Nat} {tokens : List Token} {x : Extent}
    (h : x.Spans tokens) (ho : Ordered offset tokens) : x.span.start < x.span.stop := by
  obtain ⟨t, us, u, ⟨before, after, rfl⟩, hu, hx⟩ := h
  have ho' : Ordered offset (t :: us) := ho.append_left.append_right
  have hb := ho'.bound t (by simp)
  have hle := ho'.stop_le_getLast hu (List.mem_cons_self ..)
  rw [hx]
  exact Nat.lt_of_lt_of_le hb.2 hle

end Extent

open Extent

/-- The extents lie over the tokens, in their order. -/
inductive Overlay : List Token → List Extent → Prop
  | bare {ts : List Token} : Overlay ts []
  | append {ts us : List Token} {xs ys : List Extent} : Overlay ts xs → Overlay us ys →
      Overlay (ts ++ us) (xs ++ ys)
  | node {t u : Token} {ts : List Token} {parts : List Extent} :
      (t :: ts).getLast? = some u → Overlay (t :: ts) parts →
      Overlay (t :: ts) [⟨⟨t.span.start, u.span.stop⟩, parts⟩]

namespace Overlay
variable {ts us : List Token} {xs : List Extent} {t u : Token} {offset : Nat}

/-- Bare tokens before the extents. -/
theorem before (h : Overlay ts xs) : Overlay (us ++ ts) xs :=
  Overlay.bare.append h

/-- Bare tokens behind the extents. -/
theorem behind (h : Overlay ts xs) : Overlay (ts ++ us) xs := by
  have hbare : Overlay us [] := .bare
  simpa using h.append hbare

theorem cons (h : Overlay ts xs) : Overlay (t :: ts) xs :=
  (h.before : Overlay ([t] ++ ts) xs)

/-- A leaf of the tree is one token. -/
theorem token : Overlay [t] [⟨t.span, []⟩] := Overlay.node rfl .bare

/-- A range that runs to the last token consumed does not end before it starts. -/
theorem close (ho : Ordered offset (t :: ts)) (hu : (t :: ts).getLast? = some u)
    (h : Overlay (t :: ts) xs) :
    Overlay (t :: ts) [⟨⟨t.span.start, max u.span.stop t.span.start⟩, xs⟩] := by
  rw [Nat.max_eq_left (ho.start_le_stop hu)]
  exact .node hu h

theorem spans (h : Overlay ts xs) : ∀ x ∈ allOf xs, x.Spans ts := by
  induction h with
  | bare => simp [allOf]
  | append _ _ ih₁ ih₂ =>
    intro x hx
    rw [allOf_append] at hx
    obtain hx | hx := List.mem_append.mp hx
    · exact (ih₁ x hx).mono (List.prefix_append _ _).isInfix
    · exact (ih₂ x hx).mono (List.suffix_append _ _).isInfix
  | @node t u ts parts hu _ ih =>
    intro x hx
    simp only [allOf, all, List.append_nil] at hx
    obtain rfl | hx := List.mem_cons.mp hx
    · exact ⟨t, ts, u, List.infix_rfl, hu, rfl⟩
    · exact ih x hx

theorem apart (h : Overlay ts xs) (ho : Ordered offset ts) : Apart xs := by
  induction h with
  | bare => exact .nil
  | node => exact List.pairwise_singleton _ _
  | append h₁ h₂ ih₁ ih₂ =>
    refine List.pairwise_append.mpr ⟨ih₁ ho.append_left, ih₂ ho.append_right, fun x hx y hy => ?_⟩
    have hx := h₁.spans x (mem_allOf hx)
    have hlt := hx.start_lt_stop ho.append_left
    obtain ⟨_, -, u, hu, hxu⟩ := hx.ends
    obtain ⟨t, ht, _, -, hyt⟩ := (h₂.spans y (mem_allOf hy)).ends
    have hle : x.span.stop ≤ y.span.start := by
      rw [hxu, hyt]
      exact ho.stop_le_start hu ht
    exact ⟨Nat.lt_of_lt_of_le hlt hle, hle⟩

theorem nests (h : Overlay ts xs) (ho : Ordered offset ts) : ∀ x ∈ allOf xs, x.Nests := by
  induction h with
  | bare => simp [allOf]
  | append _ _ ih₁ ih₂ =>
    intro x hx
    rw [allOf_append] at hx
    obtain hx | hx := List.mem_append.mp hx
    · exact ih₁ ho.append_left x hx
    · exact ih₂ ho.append_right x hx
  | @node t u ts parts hu h ih =>
    intro x hx
    simp only [allOf, all, List.append_nil] at hx
    obtain rfl | hx := List.mem_cons.mp hx
    · refine ⟨fun y hy => ?_, h.apart ho⟩
      obtain ⟨t', ht', u', hu', hy⟩ := (h.spans y (mem_allOf hy)).ends
      rw [hy]
      exact ⟨ho.head_start_le rfl ht', ho.stop_le_getLast hu hu'⟩
    · exact ih ho x hx

end Overlay
end PickSyntax
