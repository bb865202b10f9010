import PickSyntax.Diagnostic

/-!
# What the collector keeps

The collector takes the faults one by one. As long as it is not truncated it keeps what it has
and goes on at its end; once it is, nothing is added any more. So the report of a list of faults
is known from the list alone: as many faults as the limit allows, and a warning in the place of
the next one, if there is a next one.
-/
namespace PickSyntax

variable {source : List Char} {limit : Nat}

/-- The warning that stands for the first of the faults, and for all others of them. -/
def Diagnostic.cut (source : List Char) (limit : Nat) (dropped : List Fault) : List Diagnostic :=
  (dropped.head?.map fun f => locate source .warning ⟨.overLimit limit, f.span⟩).toList

namespace Collector

@[simp] theorem items_push (c : Collector) (severity : Severity) (f : Fault) :
    (c.push source severity f).items.toList = c.items.toList ++ [.locate source severity f] := by
  simp [push]

@[simp] theorem size_push (c : Collector) (severity : Severity) (f : Fault) :
    (c.push source severity f).items.size = c.items.size + 1 := by
  simp [push]

@[simp] theorem truncated_push (c : Collector) (severity : Severity) (f : Fault) :
    (c.push source severity f).truncated = c.truncated := rfl

/-- A truncated collector drops what it is given. -/
theorem add_of_truncated {c : Collector} (h : c.truncated) (f : Fault) :
    add source limit c f = c := if_pos h

theorem addAll_of_truncated {c : Collector} (h : c.truncated) (fs : List Fault) :
    addAll source limit c fs = c := by
  induction fs with
  | nil => rfl
  | cons f fs ih =>
    rw [addAll, List.foldl_cons, add_of_truncated h]
    exact ih

/-- Below the limit a fault is kept as an error. -/
theorem add_of_lt {c : Collector} (hc : c.truncated = false) (h : c.items.size < limit)
    (f : Fault) : add source limit c f = c.push source .error f := by
  simp [add, hc, Nat.not_le.mpr h]

/-- At the limit the collector is truncated, and a warning says so. -/
theorem add_of_full (source : List Char) {c : Collector} (hc : c.truncated = false)
    (h : limit ≤ c.items.size) (f : Fault) : (add source limit c f).truncated = true ∧
      (add source limit c f).items.toList =
        c.items.toList ++ [.locate source .warning ⟨.overLimit limit, f.span⟩] := by
  simp [add, hc, h]

/-- What a run adds to a collector that has room for `room` more faults. -/
theorem items_addAll (source : List Char) (fs : List Fault) {c : Collector} {room : Nat}
    (hc : c.truncated = false) (hroom : limit = c.items.size + room) :
    (addAll source limit c fs).items.toList =
      c.items.toList ++ ((fs.take room).map (.locate source .error) ++
        Diagnostic.cut source limit (fs.drop room)) := by
  induction fs generalizing c room with
  | nil => simp [addAll, Diagnostic.cut]
  | cons f fs ih =>
    rw [addAll, List.foldl_cons, ← addAll]
    cases room with
    | zero =>
      obtain ⟨htruncated, hitems⟩ := add_of_full source hc (Nat.le_of_eq hroom) f
      rw [addAll_of_truncated htruncated, hitems]
      simp [Diagnostic.cut]
    | succ room =>
      have hpush : limit = (c.push source .error f).items.size + room := by
        rw [size_push]
        omega
      rw [add_of_lt hc (by omega), ih (c := c.push source .error f) hc hpush]
      simp

end Collector

namespace Diagnostic

/-- The report of a list of faults, without the collector. -/
theorem report_eq (source : List Char) (limit : Nat) (faults : List Fault) :
    report source limit faults =
      (faults.take limit).map (locate source .error) ++ cut source limit (faults.drop limit) := by
  have hroom : limit = ({} : Collector).items.size + limit := (Nat.zero_add limit).symm
  simpa [report] using Collector.items_addAll source faults rfl hroom

@[simp] theorem cut_nil : cut source limit [] = [] := rfl

@[simp] theorem cut_cons (f : Fault) (fs : List Fault) :
    cut source limit (f :: fs) = [locate source .warning ⟨.overLimit limit, f.span⟩] := rfl

@[simp] theorem cut_eq_nil {fs : List Fault} : cut source limit fs = [] ↔ fs = [] := by
  cases fs <;> simp

end Diagnostic
end PickSyntax
