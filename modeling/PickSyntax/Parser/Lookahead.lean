import PickSyntax.Parser.Basic

/-!
# Looking ahead and taking tokens

A statement keeps to its logical line, so most questions about the next token are
asked together with "and is it still on this line". The few parsers that look past
the line say so in their names.
-/
namespace PickSyntax.Parser

namespace State

/-- The state before the first token. -/
def start (tokens : List Token) (comments : List Comment) : State :=
  ⟨tokens, none, false, comments, [], false, []⟩

/-- The kind of the next token. -/
def kind? (s : State) : Option TokenKind := s.rest.head?.map Token.kind

def isAt (s : State) (kind : TokenKind) : Bool := s.kind? == some kind

/-- The next token continues the logical line. -/
def onLine (s : State) : Bool :=
  match s.rest with
  | [] => false
  | t :: _ => !t.lineStart

def isAtOnLine (s : State) (kind : TokenKind) : Bool := s.onLine && s.isAt kind

/-- The next token is on this line and can begin an expression. -/
def expressionNext (s : State) : Bool :=
  match s.rest with
  | [] => false
  | t :: _ => !t.lineStart && t.kind.beginsExpression

/-- The next token is on this line and is an operand of its own. -/
def operandNext (s : State) : Bool :=
  match s.rest with
  | [] => false
  | t :: _ => !t.lineStart && t.kind.beginsOperand

/-- The next token is on this line and is a name. -/
def nameNext (s : State) : Bool :=
  match s.rest with
  | [] => false
  | t :: _ => !t.lineStart && t.kind.isName

/-- The token after the next one is on this line and is the keyword. -/
def isBeforeKeyword (s : State) (k : Keyword) : Bool :=
  match s.rest with
  | _ :: t :: _ => !t.lineStart && t.kind == .keyword k
  | _ => false

def atEndCase (s : State) : Bool := s.isAt (.keyword .END) && s.isBeforeKeyword .CASE

/-- An `END` that is not the first word of `END CASE`. -/
def atLoneEnd (s : State) : Bool := s.isAt (.keyword .END) && !s.isBeforeKeyword .CASE

/-- A statement may end before the next token. -/
def mayEndStatement (s : State) : Bool :=
  match s.rest with
  | [] => true
  | t :: _ =>
    t.lineStart ||
      match t.kind with
      | .symbol y => y == .semicolon
      | .keyword k => k.endsBlock
      | _ => false

/-- The bytes from `start` to the end of the last token consumed. -/
def since (s : State) (start : Nat) : Span :=
  match s.previous with
  | none => .point start
  | some t => ⟨start, max t.span.stop start⟩

/-- The empty range after the last token consumed. -/
def endSpan (s : State) : Span :=
  match s.previous with
  | none => .point 0
  | some t => .point t.span.stop

/-- The fault of finding the next token where `expected` should be. A token of the
next line is reported as the end of this one, once the statement has begun. -/
def unexpected (s : State) (expected : String) : Fault :=
  match s.rest with
  | [] => ⟨.endOfTokens expected, s.endSpan⟩
  | t :: _ =>
    if t.lineStart && s.begun then
      let span := match s.previous with
        | none => t.span
        | some p => .point p.span.stop
      ⟨.wrongToken expected "end of line", span⟩
    else ⟨.wrongToken expected t.describe, t.span⟩

/-- Consumes the tokens for which `p` holds, up to the first for which it does not. -/
def skipWhile (p : Token → Bool) (s : State) : State :=
  let skipped := s.rest.takeWhile p
  { s with
    rest := s.rest.dropWhile p
    previous := skipped.getLast?.or s.previous
    begun := s.begun || !skipped.isEmpty }

end State

/-- Records that `expected` is not there. -/
def reportExpected (expected : String) : Parser Unit := do
  report ((← look).unexpected expected)

/-- Records that `expected` is not there, and fails. -/
def expected {α : Type} (expected : String) : Parser α := do
  reportExpected expected
  fail

/-- Takes a token of the kind on whatever line it stands, and says whether there was one. -/
def acceptAnywhere (kind : TokenKind) : Parser Bool := do
  if (← look).isAt kind then
    skip 1
    pure true
  else pure false

/-- Takes a token of the kind from this line, and says whether there was one. -/
def accept (kind : TokenKind) : Parser Bool := do
  if (← look).isAtOnLine kind then
    skip 1
    pure true
  else pure false

def acceptSymbol (y : Symbol) : Parser Bool := accept (.symbol y)

def acceptKeyword (k : Keyword) : Parser Bool := accept (.keyword k)

/-- Takes a token of the kind from this line. -/
def require (kind : TokenKind) (description : String) : Parser Token := do
  if (← look).isAtOnLine kind then next else expected description

def requireSymbol (y : Symbol) : Parser Token := require (.symbol y) y.quoted

def requireKeyword (k : Keyword) : Parser Token := require (.keyword k) k.spelling

/-- Takes a name from this line. -/
def name (description : String) : Parser String := do
  if (← look).nameNext then return (← next).text else expected description

/-- Runs `p` only after the keyword. -/
def afterKeyword? {α : Type} (k : Keyword) (p : Parser α) : Parser (Option α) := do
  if ← acceptKeyword k then return some (← p) else return none

/-- Runs `p` only after a comma. -/
def afterComma? {α : Type} (p : Parser α) : Parser (Option α) := do
  if ← acceptSymbol .comma then return some (← p) else return none

/-- One more `p` after a comma. -/
def commaStep {α : Type} (p : Parser α) (values : List α) : Parser (Step (List α) (List α)) := do
  if ← acceptSymbol .comma then return .more (values ++ [← p]) else return .done values

/-- One or more `p`, with commas between them. -/
def commaList {α : Type} (p : Parser α) : Parser (List α) := do
  let head ← p
  loop (commaStep p) [head]

/-- Skips to where a statement may begin or a block may end. -/
def skipToBoundary : Parser Unit :=
  modifyState (State.skipWhile fun t => !t.lineStart && !t.kind.resumes)

/-- Goes on after a failed statement that began with `left` tokens left. At least one
token is consumed, unless the statement has done so. -/
def recover (left : Nat) : Parser Unit := do
  skip (if (← look).rest.length = left then 1 else 0)
  skipToBoundary

/-- Runs `p`; a failure becomes `none`, and reading goes on at the next boundary. -/
def orSkip {α : Type} (p : Parser α) : Parser (Option α) := do
  match ← catchFailure p with
  | some a => return some a
  | none =>
    skipToBoundary
    return none

/-- A comment that stands before the next token; all do when no token is left. -/
def State.isPending (s : State) (c : Comment) : Bool :=
  match s.rest with
  | [] => true
  | t :: _ => c.span.start < t.span.start

/-- Takes the comments that stand before the next token. -/
def pendingComments : Parser (List Comment) where
  run s :=
    (some (s.comments.takeWhile s.isPending),
      { s with comments := s.comments.dropWhile s.isPending })

end PickSyntax.Parser
