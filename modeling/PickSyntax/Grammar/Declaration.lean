import PickSyntax.Grammar.Expression
import PickSyntax.Tree.Statement

/-!
# Reading declarations and jumps

The statements that name things (units, arrays, shared variables, constants) and the
statements that lead elsewhere. Each parser starts after the keyword.
-/
namespace PickSyntax.Grammar

open PickSyntax.Parser

/-- The parameters after the name of a subroutine. -/
def parameters : Parser (List String) := do
  if ← acceptSymbol .leftParen then
    if ← acceptAnywhere (.symbol .rightParen) then return []
    else
      let names ← commaList (name "parameter name")
      let _ ← requireSymbol .rightParen
      return names
  else return []

def subroutine : Parser Form := do
  if (← look).nameNext then
    let unit ← name "subroutine name"
    return .subroutine (some unit) (← parameters)
  else return .subroutine none []

/-- One array with its bounds, `NAME(rows, columns)`. -/
def arrayBounds : Parser ArrayBounds := do
  let start := match (← look).rest with
    | [] => 0
    | t :: _ => t.span.start
  let array ← name "array name"
  let _ ← requireSymbol .leftParen
  let (rows, columns) ← oneOrTwo expressionAt
  let _ ← requireSymbol .rightParen
  return ⟨array, rows, columns, (← look).since start⟩

def dim : Parser Form := do
  return .dim (← commaList arrayBounds)

/-- The name of a common block between slashes. -/
def commonBlock : Parser (Option String) := do
  if ← acceptSymbol .slash then
    let block ← name "common block name"
    let _ ← requireSymbol .slash
    return some block
  else return none

def common : Parser Form := do
  let block ← commonBlock
  return .common block (← commaList (name "variable name"))

def equateSense : Parser EquateSense := do
  if ← acceptKeyword .TO then return .to
  else if ← acceptKeyword .LITERALLY then return .literally
  else expected "TO or LITERALLY"

def equate : Parser Form := do
  let constant ← name "symbol name"
  let sense ← equateSense
  return .equate constant sense (← expression)

def mat : Parser Form := do
  let array ← name "array name"
  let _ ← requireSymbol .equals
  return .mat array (← expression)

/-- A name or number on this line. -/
def target : Parser Target := do
  let s ← look
  match s.rest with
  | [] => expected "label"
  | t :: _ =>
    if !t.lineStart && (t.kind == .number || t.kind.isName) then
      skip 1
      return ⟨t.text, t.kind == .number, t.span⟩
    else expected "label"

/-- What follows `GO`: `SUB` makes it a call, and `TO` may be left out. -/
def goKind : Parser JumpKind := do
  if ← acceptKeyword .SUB then return .gosub
  else
    let _ ← acceptKeyword .TO
    return .goto

def jump (kind : JumpKind) : Parser Form := do
  return .jump kind (← target)

def go : Parser Form := do
  jump (← goKind)

def jumpOnKind : Parser JumpKind := do
  if ← acceptKeyword .GOTO then return .goto
  else if ← acceptKeyword .GOSUB then return .gosub
  else if ← acceptKeyword .GO then goKind
  else expected "GOTO or GOSUB"

def jumpOn : Parser Form := do
  let selector ← expression
  let kind ← jumpOnKind
  return .jumpOn selector kind (← commaList target)

def returnTo : Parser Form := do
  return .returnTo (← afterKeyword? .TO target)

end PickSyntax.Grammar
