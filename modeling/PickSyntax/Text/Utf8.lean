/-!
# UTF-8 decoding

A byte sequence is decoded one character at a time. Only shortest forms of
scalar values are well formed, so overlong sequences, surrogates and values
above `0x10FFFF` are refused; a refusal gives the offset of the first byte of
the ill-formed sequence, up to which the text was valid.
-/
namespace PickSyntax.Utf8

/-- What a leading byte announces. -/
structure Lead where
  /-- Continuation bytes that follow. -/
  trailing : Nat
  /-- The bits carried by the leading byte. -/
  payload : Nat
  /-- The least code point that needs this many bytes. -/
  least : Nat

def lead? (b : Nat) : Option Lead :=
  if b < 0x80 then some ⟨0, b, 0⟩
  else if b < 0xC0 then none
  else if b < 0xE0 then some ⟨1, b - 0xC0, 0x80⟩
  else if b < 0xF0 then some ⟨2, b - 0xE0, 0x800⟩
  else if b < 0xF8 then some ⟨3, b - 0xF0, 0x10000⟩
  else none

/-- Appends the six bits of each continuation byte to `value`. -/
def extend? (value : Nat) : (count : Nat) → List UInt8 → Option Nat
  | 0, _ => some value
  | _ + 1, [] => none
  | n + 1, b :: bs =>
    if 0x80 ≤ b.toNat ∧ b.toNat < 0xC0 then extend? (value * 64 + (b.toNat - 0x80)) n bs else none

/-- The character that starts with byte `b`, and how many of `bs` belong to it. -/
def char? (b : UInt8) (bs : List UInt8) : Option (Char × Nat) := do
  let l ← lead? b.toNat
  let value ← extend? l.payload l.trailing bs
  if l.least ≤ value ∧ value.isValidChar then some (Char.ofNat value, l.trailing) else none

/-- Decodes from a character boundary at `offset`. -/
def decodeFrom (offset : Nat) (bytes : List UInt8) : Except Nat (List Char) :=
  match bytes with
  | [] => .ok []
  | b :: bs =>
    match char? b bs with
    | none => .error offset
    | some (c, n) => do
      let cs ← decodeFrom (offset + 1 + n) (bs.drop n)
      pure (c :: cs)
termination_by bytes.length
decreasing_by
  simp only [List.length_drop, List.length_cons]
  omega

/-- The text of well-formed bytes, or the length of their longest valid beginning. -/
def decode (bytes : List UInt8) : Except Nat (List Char) := decodeFrom 0 bytes

end PickSyntax.Utf8
