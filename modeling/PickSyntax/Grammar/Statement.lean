import PickSyntax.Grammar.Compound
import PickSyntax.Grammar.Declaration
import PickSyntax.Grammar.Exchange

/-!
# Reading statements and programs

The first token of a statement decides its form. A keyword opens the form it names; a
terminator where a statement should begin closes nothing and is a fault; anything that
can begin an expression is an assignment or a bare expression. `statement` ties the
forms together, since clauses and bodies hold statements again.
-/
namespace PickSyntax.Grammar

open PickSyntax.Parser

/-- Records a terminator that closes nothing, without consuming it. -/
def strayTerminator (terminator opener : String) (span : Span) : Parser Form := do
  report ⟨.strayTerminator terminator opener, span⟩
  fail

/-- An `END` in the place of a statement ends the unit; an `END CASE` is consumed as a
stray terminator. -/
def endUnit (opener : Token) : Parser Form := do
  let s ← look
  if s.atLoneEnd then
    skip 1
    return .endUnit
  else
    let span := match s.rest with
      | _ :: word :: _ => opener.span.merge word.span
      | _ => s.endSpan
    report ⟨.strayTerminator "END CASE" "BEGIN CASE", span⟩
    skip 2
    fail

/-- An assignment `target = value`, or any expression. -/
def assignmentOrExpression (opener : Token) : Parser Form := do
  if !opener.kind.beginsExpression then expected "statement"
  else if (unaryOf? opener.kind).isSome then return .expression (← expression)
  else
    let target ← primary expressionAt
    if target.isAssignable && (← look).isAtOnLine (.symbol .equals) then
      skip 1
      return .assignment target (← expression)
    else return .expression (← chain expressionAt 0 target)

/-- Consumes the keyword and reads on. -/
def led (p : Token → Parser Form) : Parser Form := do
  p (← next)

/-- The form that a keyword opens. -/
def keywordForm (statement : Parser Statement) (k : Keyword) (opener : Token) : Parser Form :=
  match k with
  | .SUBROUTINE => led fun _ => subroutine
  | .END => endUnit opener
  | .DIM | .DIMENSION => led fun _ => dim
  | .COMMON | .COM => led fun _ => common
  | .EQUATE | .EQU => led fun _ => equate
  | .MAT => led fun _ => mat
  | .IF => led (ifThen statement)
  | .BEGIN => led (beginCase statement)
  | .FOR => led (forNext statement)
  | .LOOP => led (loopRepeat statement)
  | .GOTO => led fun _ => jump .goto
  | .GOSUB => led fun _ => jump .gosub
  | .GO => led fun _ => go
  | .ON => led fun _ => jumpOn
  | .RETURN => led fun _ => returnTo
  | .PRINT => led fun _ => print
  | .CRT => led fun _ => crt
  | .INPUT => led (input statement)
  | .INPUTTRAP => led fun _ => inputTrap
  | .DATA => led fun _ => data
  | .PRINTER => led fun _ => switch .printer
  | .BREAK => led fun _ => switch .breakKey
  | .ECHO => led fun _ => switch .echo
  | .OPEN => led (openFile statement)
  | .READ => led (read statement .plain)
  | .READU => led (read statement .locking)
  | .READV => led (read statement .attr)
  | .READVU => led (read statement .lockingAttr)
  | .WRITE => led fun _ => write statement .plain
  | .WRITEU => led fun _ => write statement .locking
  | .WRITEV => led fun _ => write statement .attr
  | .WRITEVU => led fun _ => write statement .lockingAttr
  | .DELETE => led (delete statement)
  | .READNEXT => led (receive statement .selectList)
  | .READT => led (receive statement .tape)
  | .PROCREAD => led (receive statement .procBuffer)
  | .WRITET => led fun _ => writeTape
  | .SELECT => led fun _ => select
  | .LOCK => led (lock statement)
  | .CLEARFILE => led fun _ => clearFile statement
  | .MATREAD => led (matRead statement false)
  | .MATREADU => led (matRead statement true)
  | .MATWRITE => led fun _ => matWrite statement false
  | .MATWRITEU => led fun _ => matWrite statement true
  | .LOCATE => led (locate statement)
  | .EXECUTE => led fun _ => execute
  | .CALL => led fun _ => call
  | .INPUTERR => led fun _ => operandOf .inputErr
  | .INPUTNULL => led fun _ => operandOf .inputNull
  | .PROMPT => led fun _ => operandOf .prompt
  | .HEADING => led fun _ => operandOf .heading
  | .FOOTING => led fun _ => operandOf .footing
  | .UNLOCK => led fun _ => operandOf .unlock
  | .PROCWRITE => led fun _ => operandOf .procWrite
  | .WEOF => led fun _ => operandOf .weof
  | .CHAIN => led fun _ => operandOf .chain
  | .ENTER => led fun _ => operandOf .enter
  | .PRECISION => led fun _ => operandOf .precision
  | .STOP => led fun _ => optionalOf .stop
  | .ABORT => led fun _ => optionalOf .abort
  | .PAGE => led fun _ => optionalOf .page
  | .RELEASE => led fun _ => optionalOf .release
  | .REWIND => led fun _ => optionalOf .rewind
  | .SLEEP => led fun _ => optionalOf .sleep
  | .RQM => led fun _ => pure (.bare .rqm)
  | .NULL => led fun _ => pure (.bare .null)
  | .CLEAR => led fun _ => pure (.bare .clear)
  | .NEXT => strayTerminator "NEXT" "FOR" opener.span
  | .REPEAT => strayTerminator "REPEAT" "LOOP" opener.span
  | .WHILE => strayTerminator "WHILE" "LOOP" opener.span
  | .UNTIL => strayTerminator "UNTIL" "LOOP" opener.span
  | .ELSE => strayTerminator "ELSE" "IF" opener.span
  | .CASE => strayTerminator "CASE" "BEGIN CASE" opener.span
  | _ => assignmentOrExpression opener

/-- The form that begins with the token. -/
def form (statement : Parser Statement) (opener : Token) : Parser Form :=
  match opener.kind with
  | .keyword k => keywordForm statement k opener
  | _ => assignmentOrExpression opener

/-- A statement in terms of the nested ones. -/
def statementStep (nested : Parser Statement) : Parser Statement := do
  match (← look).rest with
  | [] => expected "statement"
  | t :: _ =>
    let form ← form nested t
    return ⟨form, (← look).since t.span.start⟩

def statement : Parser Statement :=
  knot (fun nested _ => statementStep (nested ())) ()

/-- All that the tokens hold. -/
def program : Parser Program := do
  return ⟨← programItems statement⟩

end PickSyntax.Grammar
