import PickSyntax.Grammar.Expression
import PickSyntax.Tree.Statement

/-!
# Reading statement lists

A statement list is read item by item: comments where they stand, separators
skipped, and each label or statement in turn. A statement that fails leaves no item;
its fault is on record, and reading goes on at the next boundary.

The body of a block ends at the block's own terminator, which is left for the
statement that opened the block, or at the terminator of a block further out, which
leaves this one unterminated.
-/
namespace PickSyntax.Grammar

open PickSyntax.Parser

/-- How a body ended. -/
inductive BodyEnd where
  /-- At the block's own terminator. -/
  | closed
  /-- At the terminator of an enclosing block. -/
  | interrupted
  /-- At the end of the tokens. -/
  | exhausted
  deriving DecidableEq, Repr, Inhabited

/-- The next token closes such a block. -/
def closes (s : State) (block : Block) : Bool :=
  match s.kind? with
  | some (.keyword k) =>
    match block with
    | .thenBody => k == .ELSE || s.atLoneEnd
    | .elseBody => s.atLoneEnd
    | .forBody => k == .NEXT
    | .loopBefore => k == .WHILE || k == .UNTIL || k == .REPEAT
    | .loopAfter => k == .REPEAT
    | .caseBody => k == .CASE || s.atEndCase
  | _ => false

/-- The next token closes one of the blocks. -/
def closesAny (s : State) (blocks : List Block) : Bool := blocks.any (closes s)

/-- A block that a lone `END` closes is open. -/
def awaitsEnd (s : State) : Bool :=
  s.blocks.any fun b => b == .thenBody || b == .elseBody

/-- The number next is a label: it is not the left operand of an operator. -/
def label? (s : State) : Option Label :=
  match s.rest with
  | [] => none
  | t :: ts =>
    if t.kind == .number && (infixAt? s.angled ts).isNone then some ⟨t.text, t.span⟩ else none

/-- The next token is the first of a statement. -/
def beginStatement : Parser Unit := modifyState fun s => { s with begun := false }

/-- After a statement that began with `left` tokens left: nothing else may follow it. -/
def endStatement (left : Nat) : Parser Unit := do
  if (← look).mayEndStatement then return ()
  else
    reportExpected "end of statement"
    recover left

/-- One label or statement, or nothing for a statement that failed. -/
def item (statement : Parser Statement) : Parser (Option Item) := do
  let s ← look
  match label? s with
  | some l =>
    skip 1
    return some (.label l)
  | none =>
    let left := s.rest.length
    beginStatement
    match ← catchFailure statement with
    | none =>
      recover left
      return none
    | some st =>
      endStatement left
      return some (.statement st)

/-- The comments before the next token, as items. -/
def commentItems : Parser (List Item) := do
  return (← pendingComments).map Item.comment

/-- A separator, the end of the block, or one more item. -/
def bodyStep (statement : Parser Statement) (block : Block) (items : List Item) :
    Parser (Step (List Item) (List Item × BodyEnd)) := do
  let items := items ++ (← commentItems)
  if ← acceptAnywhere (.symbol .semicolon) then return .more items
  else
    let s ← look
    if s.rest.isEmpty then return .done (items, .exhausted)
    else if closes s block then return .done (items, .closed)
    else
      let outer ← enclosing
      if closesAny s outer then return .done (items, .interrupted)
      else return .more (items ++ (← item statement).toList)

/-- The items of a block up to its end. -/
def body (statement : Parser Statement) (block : Block) : Parser (List Item × BodyEnd) :=
  inBlock block (loop (bodyStep statement block) [])

/-- A separator, the end of the tokens, or one more item. -/
def programStep (statement : Parser Statement) (items : List Item) :
    Parser (Step (List Item) (List Item)) := do
  let items := items ++ (← commentItems)
  if ← acceptAnywhere (.symbol .semicolon) then return .more items
  else if (← look).rest.isEmpty then return .done items
  else return .more (items ++ (← item statement).toList)

/-- The items of a program, to the end of the tokens. -/
def programItems (statement : Parser Statement) : Parser (List Item) :=
  loop (programStep statement) []

end PickSyntax.Grammar
