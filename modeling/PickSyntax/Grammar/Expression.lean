import PickSyntax.Parser.Lookahead
import PickSyntax.Tree.Expr

/-!
# Reading expressions

An expression is an operand followed by a chain of infix operators with operands of
their own; how far the chain runs is decided by the level above which operators are
taken. An operator counts only when an operand can follow it on the same line, so a
colon or comma that ends a line is left to the statement.

A name directly followed by `<` may open a reference `NAME<…>`. Inside, a lone `>`
closes it. When the reference does not close, or an operand follows it directly, the
attempt is undone and the `<` compares.

Every parser here takes the parser of nested expressions as an argument; `expressionAt`
ties them together.
-/
namespace PickSyntax.Grammar

open PickSyntax.Parser

/-- The parser of an expression whose infix operators all lie above a level. -/
abbrev AtLevel := Nat → Parser Expr

def binaryOfKeyword? : Keyword → Option BinaryOp
  | .OR => some .or
  | .AND => some .and
  | .EQ => some .eq
  | .NE => some .ne
  | .LT => some .lt
  | .GT => some .gt
  | .LE => some .le
  | .GE => some .ge
  | .MATCH | .MATCHES => some .matching
  | .CAT => some .concat
  | _ => none

/-- The operator that a symbol spells, alone or together with the symbol `beside` it,
and the number of tokens that takes. -/
def binaryOfSymbol? (angled : Bool) (y : Symbol) (beside : Option Symbol) :
    Option (BinaryOp × Nat) :=
  match y, beside with
  | .plus, _ => some (.add, 1)
  | .minus, _ => some (.sub, 1)
  | .star, some .star => some (.pow, 2)
  | .star, _ => some (.mul, 1)
  | .slash, _ => some (.div, 1)
  | .caret, _ => some (.pow, 1)
  | .colon, _ => some (.concat, 1)
  | .hash, _ => some (.ne, 1)
  | .equals, some .less => some (.le, 2)
  | .equals, some .greater => some (.ge, 2)
  | .equals, _ => some (.eq, 1)
  | .less, some .greater => some (.ne, 2)
  | .less, some .equals => some (.le, 2)
  | .less, _ => some (.lt, 1)
  | .greater, some .equals => if angled then none else some (.ge, 2)
  | .greater, _ => if angled then none else some (.gt, 1)
  | _, _ => none

/-- The symbol that directly follows another token. -/
def symbolBeside? : List Token → Option Symbol
  | [] => none
  | t :: _ =>
    if t.spaced then none
    else
      match t.kind with
      | .symbol y => some y
      | _ => none

/-- The operator spelled at the front of the tokens, with no regard to what follows it. -/
def binaryAt? (angled : Bool) : List Token → Option (BinaryOp × Nat)
  | [] => none
  | t :: ts =>
    if t.lineStart then none
    else
      match t.kind with
      | .symbol y => binaryOfSymbol? angled y (symbolBeside? ts)
      | .keyword k => (binaryOfKeyword? k).map (·, 1)
      | _ => none

/-- The infix operator at the front of the tokens: an operand can follow it. -/
def infixAt? (angled : Bool) (tokens : List Token) : Option (BinaryOp × Nat) :=
  match binaryAt? angled tokens with
  | none => none
  | some (op, width) =>
    match tokens.drop width with
    | [] => none
    | t :: _ => if !t.lineStart && t.kind.beginsExpression then some (op, width) else none

/-- Takes one infix operator above the level, with its right operand. -/
def chainStep (nested : AtLevel) (level : Nat) (left : Expr) : Parser (Step Expr Expr) := do
  let s ← look
  match infixAt? s.angled s.rest with
  | none => return .done left
  | some (op, width) =>
    if op.level ≤ level then return .done left
    else
      skip width
      let right ← nested op.rightLevel
      return .more (.binary left op right (left.span.merge right.span))

/-- Carries an expression on while infix operators above the level follow. -/
def chain (nested : AtLevel) (level : Nat) (left : Expr) : Parser Expr :=
  loop (chainStep nested level) left

/-- The arguments of a call, after the opening parenthesis. -/
def arguments (nested : AtLevel) : Parser (List Expr) :=
  withAngled false do
    if ← acceptAnywhere (.symbol .rightParen) then return []
    else
      let args ← commaList (nested 0)
      let _ ← requireSymbol .rightParen
      return args

/-- An expression, and another one if a comma follows. -/
def oneOrTwo (nested : AtLevel) : Parser (Expr × Option Expr) := do
  let fst ← nested 0
  let snd ← afterComma? (nested 0)
  return (fst, snd)

/-- One or two expressions and the mark that closes them. -/
def enclosed (nested : AtLevel) (closing : Symbol) : Parser (Expr × Option Expr) :=
  withAngled false do
    let inner ← oneOrTwo nested
    let _ ← requireSymbol closing
    return inner

/-- The subscripts of a dynamic array: attribute, value, sub-value. -/
def subscripts (nested : AtLevel) : Parser (Expr × Option Expr × Option Expr) := do
  let attr ← nested 0
  if ← acceptSymbol .comma then
    let value ← nested 0
    let subValue ← afterComma? (nested 0)
    return (attr, some value, subValue)
  else return (attr, none, none)

/-- The part `<attr, value, subValue>` after a name. Fails when it does not close, and when
an operand follows it. -/
def angleSubscripts (nested : AtLevel) : Parser (Expr × Option Expr × Option Expr) := do
  skip 1
  let subs ← withAngled true (subscripts nested)
  if ← acceptSymbol .greater then
    if (← look).operandNext then fail else return subs
  else fail

/-- The `<` next is the first half of `<>` or `<=`. -/
def isFusedLess (tokens : List Token) : Bool :=
  match symbolBeside? tokens.tail with
  | some y => y == .greater || y == .equals
  | none => false

/-- What is attached to a name. -/
inductive Attachment where
  | none | call | dynamic | substring

def attachment : List Token → Attachment
  | [] => .none
  | t :: ts =>
    if t.kind == .symbol .leftParen && !t.spaced then .call
    else if t.kind == .symbol .less && !t.spaced && !isFusedLess (t :: ts) then .dynamic
    else if t.kind == .symbol .leftBracket && !t.lineStart then .substring
    else .none

/-- A name and what is attached to it. -/
def named (nested : AtLevel) : Parser Expr := do
  let t ← next
  let start := t.span.start
  match attachment (← look).rest with
  | .call =>
    skip 1
    let args ← arguments nested
    return .call t.text args ((← look).since start)
  | .dynamic =>
    match ← attempt (angleSubscripts nested) with
    | some (attr, value, subValue) =>
      return .dynamic t.text attr value subValue ((← look).since start)
    | none => return .name t.text t.span
  | .substring =>
    skip 1
    let (first, length) ← enclosed nested .rightBracket
    return .substring t.text first length ((← look).since start)
  | .none => return .name t.text t.span

/-- A cursor position, `@(column, row)`. -/
def cursor (nested : AtLevel) : Parser Expr := do
  let t ← next
  let _ ← require (.symbol .leftParen) "`(` after `@`"
  let (column, row) ← enclosed nested .rightParen
  return .cursor column row ((← look).since t.span.start)

def parenthesized (nested : AtLevel) : Parser Expr := do
  let t ← next
  let inner ← withAngled false do
    let inner ← nested 0
    let _ ← requireSymbol .rightParen
    return inner
  return .paren inner ((← look).since t.span.start)

/-- The text between the delimiters; a string left open has only the first. -/
def unquote (q : Quote) (text : List Char) : List Char :=
  let inner := match text with
    | c :: cs => if c == q.char then cs else text
    | [] => text
  if inner.getLast? == some q.char then inner.dropLast else inner

/-- The name of a system variable without its mark. -/
def systemName (text : String) : String := String.ofList (text.toList.dropWhile (· == '@'))

/-- A parenthesis directly follows the front token. -/
def isBeforeParen (tokens : List Token) : Bool := symbolBeside? tokens.tail == some .leftParen

/-- Records a token that begins no operand. -/
def invalidOperand (t : Token) : Parser Expr := do
  report ⟨.noOperand ("expected expression, found " ++ t.describe), t.span⟩
  fail

/-- A literal, a name with its attachment, or a group. A word of the language reads as
the name of a function when a parenthesis is attached to it. -/
def primary (nested : AtLevel) : Parser Expr := do
  let s ← look
  match s.rest with
  | [] => expected "expression"
  | t :: _ =>
    if t.lineStart && s.begun then expected "expression"
    else
      match t.kind with
      | .number =>
        skip 1
        return .number t.text t.span
      | .string q =>
        skip 1
        return .string (String.ofList (unquote q t.text.toList)) q t.span
      | .systemName =>
        skip 1
        return .system (systemName t.text) t.span
      | .symbol .atSign => cursor nested
      | .symbol .leftParen => parenthesized nested
      | .symbol _ => invalidOperand t
      | .identifier => named nested
      | .keyword k =>
        if k.isSoft || (!k.spellsOperator && isBeforeParen s.rest) then named nested
        else invalidOperand t

def unaryOf? : TokenKind → Option UnaryOp
  | .symbol .minus => some .neg
  | .symbol .plus => some .plus
  | .keyword .NOT => some .not
  | _ => none

/-- An operand with the signs before it. -/
def operand (nested : AtLevel) : Parser Expr := do
  match (← look).kind?.bind unaryOf? with
  | some op =>
    let t ← next
    let inner ← nested UnaryOp.level
    return .unary op inner ⟨t.span.start, inner.span.stop⟩
  | none => primary nested

/-- An expression of operators above the level, in terms of the nested ones. -/
def expressionStep (nested : AtLevel) (level : Nat) : Parser Expr := do
  chain nested level (← operand nested)

def expressionAt : AtLevel := knot expressionStep

def expression : Parser Expr := expressionAt 0

/-- An expression if one begins on this line. -/
def expression? : Parser (Option Expr) := do
  if (← look).expressionNext then return some (← expression) else return none

end PickSyntax.Grammar
