/-!
# Byte ranges of the source

Every token, trivia piece and tree node remembers the half-open range of UTF-8
bytes it was read from. A range is plain data: the parser builds only ordered
ones, but the operations below are total on any two offsets.
-/
namespace PickSyntax

/-- The bytes from `start` up to, but not including, `stop`. -/
structure Span where
  start : Nat
  stop : Nat
  deriving DecidableEq, Repr, Inhabited

namespace Span

/-- The least range that covers both. -/
def merge (a b : Span) : Span := ⟨min a.start b.start, max a.stop b.stop⟩

/-- Number of bytes; a range that ends before it starts has none. -/
def length (a : Span) : Nat := a.stop - a.start

def isEmpty (a : Span) : Bool := a.length == 0

/-- The empty range at one offset. -/
def point (offset : Nat) : Span := ⟨offset, offset⟩

@[simp] theorem merge_start (a b : Span) : (a.merge b).start = min a.start b.start := rfl
@[simp] theorem merge_stop (a b : Span) : (a.merge b).stop = max a.stop b.stop := rfl
@[simp] theorem point_start (n : Nat) : (point n).start = n := rfl
@[simp] theorem point_stop (n : Nat) : (point n).stop = n := rfl

theorem isEmpty_iff (a : Span) : a.isEmpty = true ↔ a.stop ≤ a.start := by
  simp [isEmpty, length, Nat.sub_eq_zero_iff_le]

end Span
end PickSyntax
