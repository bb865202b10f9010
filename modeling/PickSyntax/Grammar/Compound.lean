import PickSyntax.Grammar.Clause

/-!
# Reading block statements

`IF`, `FOR`, `LOOP` and `BEGIN CASE`. Each parser starts after the keyword `opener`.
A block that never meets its terminator is reported once, at its opener, and the part
that was read is kept.
-/
namespace PickSyntax.Grammar

open PickSyntax.Parser

def ifThen (statement : Parser Statement) (opener : Token) : Parser Form := do
  let condition ← expression
  return .ifThen condition (← requiredClause statement ⟨"IF", opener.span⟩)

/-- The next token is `WHILE` or `UNTIL`. -/
def guardSense? (s : State) : Option GuardSense :=
  match s.kind? with
  | some (.keyword .WHILE) => some .whileTrue
  | some (.keyword .UNTIL) => some .untilTrue
  | _ => none

/-- The word of the guard, which may begin a line, and the condition on that line. -/
def loopGuard (sense : GuardSense) : Parser LoopGuard := do
  skip 1
  return ⟨sense, ← expression⟩

/-- The guard in the head of a `FOR`. -/
def forGuard : Parser (Option LoopGuard) := do
  let s ← look
  match guardSense? s with
  | some sense => if s.onLine then return some (← loopGuard sense) else return none
  | none => return none

/-- The name after `NEXT`, if the line has one. -/
def nextName : Parser (Option String) := do
  skip 1
  if (← look).nameNext then return some (← next).text else return none

def forNext (statement : Parser Statement) (opener : Token) : Parser Form := do
  let counter ← name "loop variable"
  let _ ← requireSymbol .equals
  let start ← expression
  let _ ← requireKeyword .TO
  let limit ← expression
  let step ← afterKeyword? .STEP expression
  let guard ← forGuard
  let (items, stop) ← body statement .forBody
  if stop == .closed then
    return .forNext counter start limit step guard items (← nextName)
  else
    reportUnclosed ⟨"FOR", opener.span⟩ "NEXT"
    return .forNext counter start limit step guard items none

/-- The guard of a `LOOP` and the body after it, up to `REPEAT`. A guard that fails is
left out. -/
def loopRest (statement : Parser Statement) (owner : Owner) (sense : GuardSense) :
    Parser (Option LoopGuard × List Item) := do
  let guard ← orSkip (loopGuard sense)
  let _ ← acceptKeyword .DO
  let (items, stop) ← body statement .loopAfter
  closeBlock owner "REPEAT" stop
  return (guard, items)

def loopRepeat (statement : Parser Statement) (opener : Token) : Parser Form := do
  let owner : Owner := ⟨"LOOP", opener.span⟩
  let (before, stop) ← body statement .loopBefore
  if stop == .closed then
    match guardSense? (← look) with
    | some sense =>
      let (guard, after) ← loopRest statement owner sense
      return .loop before guard after
    | none =>
      skip 1
      return .loop before none []
  else
    reportUnclosed owner "REPEAT"
    return .loop before none []

/-- One `CASE` with its condition and body. Comments read before it stand first in the
body. A clause whose condition fails is left out, and hands those comments on. -/
def caseArm (statement : Parser Statement) (leading : List Item) :
    Parser (Option CaseArm × BodyEnd) := do
  let opener ← next
  let condition ← orSkip expression
  let (items, stop) ← body statement .caseBody
  let span := (← look).since opener.span.start
  return (condition.map fun c => ⟨c, leading ++ items, span⟩, stop)

/-- What has been read of a `BEGIN CASE`: comments that wait for the next clause, and the
clauses. -/
structure CaseProgress where
  leading : List Item
  cases : List CaseArm

/-- Ends a `BEGIN CASE` that lacks its `END CASE`. -/
def abandonCases (owner : Owner) (cases : List CaseArm) :
    Parser (Step CaseProgress (List CaseArm)) := do
  reportUnclosed owner "END CASE"
  return .done cases

/-- One clause, after which the block goes on if the clause ended properly. -/
def caseArmStep (statement : Parser Statement) (owner : Owner) (p : CaseProgress) :
    Parser (Step CaseProgress (List CaseArm)) := do
  let (clause, stop) ← caseArm statement p.leading
  let p : CaseProgress := match clause with
    | some c => ⟨[], p.cases ++ [c]⟩
    | none => p
  match stop with
  | .closed => return .more p
  | .interrupted | .exhausted => abandonCases owner p.cases

/-- A separator, the end of the block, one more clause, or a statement where only a
clause can stand, which is skipped. -/
def caseStep (statement : Parser Statement) (owner : Owner) (p : CaseProgress) :
    Parser (Step CaseProgress (List CaseArm)) := do
  let p : CaseProgress := ⟨p.leading ++ (← commentItems), p.cases⟩
  if ← acceptAnywhere (.symbol .semicolon) then return .more p
  else
    let s ← look
    if s.rest.isEmpty then abandonCases owner p.cases
    else if s.atEndCase then
      skip 2
      return .done p.cases
    else if s.isAt (.keyword .CASE) then caseArmStep statement owner p
    else if closesAny s s.blocks then abandonCases owner p.cases
    else
      beginStatement
      reportExpected "CASE"
      recover s.rest.length
      return .more p

/-- The clauses of a `BEGIN CASE` and the `END CASE` after them. -/
def caseArms (statement : Parser Statement) (owner : Owner) : Parser (List CaseArm) :=
  loop (caseStep statement owner) ⟨[], []⟩

def beginCase (statement : Parser Statement) (opener : Token) : Parser Form := do
  let word ← requireKeyword .CASE
  return .beginCase (← caseArms statement ⟨"BEGIN CASE", opener.span.merge word.span⟩)

end PickSyntax.Grammar
