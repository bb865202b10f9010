import PickSyntax.Span
import PickSyntax.Text.CharLiteral

/-!
# Faults

A fault is a cause and the bytes it is about. Neither the lexer nor the parser
stops at one: faults are collected, and each becomes a diagnostic later. The
wording of every message is `Cause.message`.
-/
namespace PickSyntax

/-- The broad classes of faults. -/
inductive FaultClass where
  | lexical
  | grammar
  /-- A block that never met its terminator. -/
  | openBlock
  /-- More faults than are reported. -/
  | limit
  deriving DecidableEq, Repr, Inhabited

inductive Cause where
  /-- A character that begins no lexeme. -/
  | strayCharacter (char : Char)
  /-- A string without a closing delimiter on its line. -/
  | openString
  /-- An `&` that does not end its line. -/
  | looseAmpersand
  /-- Another token than the one the grammar wants. -/
  | wrongToken (expected found : String)
  /-- The tokens end where the grammar wants one. -/
  | endOfTokens (expected : String)
  /-- A token that cannot begin an operand where one is required. -/
  | noOperand (reason : String)
  | noClause (statement clause : String)
  /-- A terminator with no open block that it could close. -/
  | strayTerminator (terminator opener : String)
  | openBlock (construct expected : String)
  | overLimit (limit : Nat)
  deriving DecidableEq, Repr, Inhabited

namespace Cause

def message : Cause → String
  | .strayCharacter char => "invalid character " ++ Text.charLiteral char
  | .openString => "unterminated string literal"
  | .looseAmpersand => "`&` must be followed by a line break"
  | .wrongToken expected found => "expected " ++ expected ++ ", found " ++ found
  | .endOfTokens expected => "unexpected end of file, expected " ++ expected
  | .noOperand reason => "invalid expression: " ++ reason
  | .noClause statement clause => statement ++ " requires " ++ clause
  | .strayTerminator terminator opener => terminator ++ " without a matching " ++ opener
  | .openBlock construct expected => construct ++ " is missing its " ++ expected
  | .overLimit limit =>
    "too many diagnostics; only the first " ++ limit.repr ++ " are reported"

def faultClass : Cause → FaultClass
  | .strayCharacter _ | .openString | .looseAmpersand => .lexical
  | .openBlock _ _ => .openBlock
  | .overLimit _ => .limit
  | _ => .grammar

end Cause

structure Fault where
  cause : Cause
  span : Span
  deriving DecidableEq, Repr, Inhabited

namespace Fault

def message (f : Fault) : String := f.cause.message

end Fault
end PickSyntax
