import PickSyntax.Text.Unprintable

/-!
# A character as messages show it

Between single quotes; the quote, the backslash and the common controls are
written with a backslash, and a character without a glyph of its own by its code
point in lower-case hexadecimal.
-/
namespace PickSyntax.Text

/-- The escaped spelling of one character, without the quotes. -/
def escapeChar (c : Char) : String :=
  match c with
  | '\x00' => "\\0"
  | '\t' => "\\t"
  | '\r' => "\\r"
  | '\n' => "\\n"
  | '\x27' => "\\'"
  | '\\' => "\\\\"
  | c =>
    if isUnprintable c then "\\u\x7b" ++ String.ofList (Nat.toDigits 16 c.toNat) ++ "\x7d"
    else String.singleton c

def charLiteral (c : Char) : String := "'" ++ escapeChar c ++ "'"

end PickSyntax.Text
