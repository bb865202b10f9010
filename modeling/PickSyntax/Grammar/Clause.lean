import PickSyntax.Grammar.Body

/-!
# Reading clauses

Statements share three kinds of clauses: `ON ERROR` and `LOCKED` with one statement
each, and `THEN` and `ELSE` with one statement or a block. A branch is a block when
its keyword ends the line; otherwise it is a single statement on the same line. A
lone `END` right after a clause of single statements turns it into a block, unless it
closes a block that is open around it.
-/
namespace PickSyntax.Grammar

open PickSyntax.Parser

/-- The statement that a clause belongs to, as faults name it. -/
structure Owner where
  name : String
  span : Span

/-- Records that a construct lacks its terminator. -/
def reportUnclosed (owner : Owner) (terminator : String) : Parser Unit :=
  report ⟨.openBlock owner.name terminator, owner.span⟩

/-- After the body of a block: takes its terminator, or records that there is none. -/
def closeBlock (owner : Owner) (terminator : String) (stop : BodyEnd) : Parser Unit :=
  match stop with
  | .closed => skip 1
  | .interrupted | .exhausted => reportUnclosed owner terminator

/-- One statement that must begin on this line. -/
def clauseStatement (statement : Parser Statement) : Parser Statement := do
  if (← look).onLine then
    beginStatement
    statement
  else expected "statement"

/-- The words `ON ERROR` and a statement. -/
def onErrorClause (statement : Parser Statement) : Parser (Option Statement) := do
  let s ← look
  if s.isAtOnLine (.keyword .ON) && s.isBeforeKeyword .ERROR then
    skip 2
    return some (← clauseStatement statement)
  else return none

/-- The word `LOCKED` and a statement. -/
def lockedClause (statement : Parser Statement) : Parser (Option Statement) :=
  afterKeyword? .LOCKED (clauseStatement statement)

/-- The block after an `ELSE`, with the `END` that closes it. -/
def elseBlock (statement : Parser Statement) (owner : Owner) : Parser (List Item) := do
  let (items, stop) ← body statement .elseBody
  closeBlock owner "END" stop
  return items

/-- What follows an `ELSE`. -/
def elseBranch (statement : Parser Statement) (owner : Owner) :
    Parser (List Item × ClauseLayout) := do
  if (← look).onLine then return ([.statement (← clauseStatement statement)], .inline)
  else return (← elseBlock statement owner, .block)

/-- The block after a `THEN` and what closes it: `END`, `END ELSE` with another
branch, or `ELSE` with another block. -/
def thenBlock (statement : Parser Statement) (owner : Owner) : Parser Clause := do
  let (items, stop) ← body statement .thenBody
  if stop == .closed then
    if (← look).atLoneEnd then
      skip 1
      if ← acceptKeyword .ELSE then
        let (other, _) ← elseBranch statement owner
        return ⟨some items, some other, .block⟩
      else return ⟨some items, none, .block⟩
    else
      skip 1
      return ⟨some items, some (← elseBlock statement owner), .block⟩
  else
    reportUnclosed owner "END"
    return ⟨some items, none, .block⟩

/-- Lets a lone `END` close a clause written on one line. -/
def closeInline (clause : Clause) : Parser Clause := do
  let s ← look
  if clause.layout == .inline && s.atLoneEnd && !awaitsEnd s then
    skip 1
    return { clause with layout := .block }
  else return clause

/-- A statement after `THEN`, and what an `ELSE` on the same line adds. -/
def thenInline (statement : Parser Statement) (owner : Owner) : Parser Clause := do
  let st ← clauseStatement statement
  if ← acceptKeyword .ELSE then
    let (other, layout) ← elseBranch statement owner
    closeInline ⟨some [.statement st], some other, layout⟩
  else closeInline ⟨some [.statement st], none, .inline⟩

/-- The `THEN` and `ELSE` branches, if there are any. -/
def clause? (statement : Parser Statement) (owner : Owner) : Parser (Option Clause) := do
  if ← acceptKeyword .THEN then
    if (← look).onLine then return some (← thenInline statement owner)
    else return some (← thenBlock statement owner)
  else if ← acceptKeyword .ELSE then
    let (items, layout) ← elseBranch statement owner
    return some (← closeInline ⟨none, some items, layout⟩)
  else return none

/-- The `THEN` and `ELSE` branches, of which the statement needs one. -/
def requiredClause (statement : Parser Statement) (owner : Owner) : Parser Clause := do
  match ← clause? statement owner with
  | some c => return c
  | none =>
    report ⟨.noClause owner.name "THEN or ELSE", (← look).since owner.span.start⟩
    fail

end PickSyntax.Grammar
