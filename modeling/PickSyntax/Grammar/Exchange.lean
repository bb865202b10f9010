import PickSyntax.Grammar.Clause
import PickSyntax.Grammar.Declaration

/-!
# Reading statements that exchange data

The terminal and the printer, files and records, locks, and other programs. Each
parser starts after the keyword; `opener` is that keyword's token where faults have to
name it.

Record operations share the operand list `file, key, attribute`. Of two operands the
attribute forms take the second for the attribute, and all others take the first for
the file.
-/
namespace PickSyntax.Grammar

open PickSyntax.Parser

/-- The separator after an item of a print list. -/
def entrySeparator : Parser (Option Separator) := do
  if ← acceptSymbol .comma then return some .comma
  else if ← acceptSymbol .colon then return some .colon
  else return none

/-- One more item of a print list. It is the last one when no separator follows it. -/
def printStep (items : List PrintEntry) : Parser (Step (List PrintEntry) (List PrintEntry)) := do
  if (← look).expressionNext then
    let expr ← expression
    match ← entrySeparator with
    | some separator => return .more (items ++ [⟨expr, some separator⟩])
    | none => return .done (items ++ [⟨expr, none⟩])
  else return .done items

/-- The items of `PRINT` and `CRT`. -/
def printList : Parser (List PrintEntry) := loop printStep []

def print : Parser Form := do
  let channel ← afterKeyword? .ON expression
  return .print channel (← printList)

def crt : Parser Form := do
  return .crt (← printList)

/-- The length of an input, and whether a colon keeps the line. -/
def inputLength : Parser (Option Expr × Bool) := do
  let length ← afterComma? expression
  return (length, ← acceptSymbol .colon)

/-- The rest of `INPUT@(column, row), name`. -/
def inputAt (statement : Parser Statement) (opener : Token) : Parser Form := do
  skip 1
  let _ ← requireSymbol .leftParen
  let column ← expression
  let _ ← requireSymbol .comma
  let row ← expression
  let _ ← requireSymbol .rightParen
  let _ ← acceptSymbol .comma
  let into ← name "input variable"
  let (length, stay) ← inputLength
  let owner : Owner := ⟨"INPUT@", (← look).since opener.span.start⟩
  return .inputAt column row into length stay (← clause? statement owner)

def input (statement : Parser Statement) (opener : Token) : Parser Form := do
  if (← look).isAtOnLine (.symbol .atSign) then inputAt statement opener
  else
    let into ← name "input variable"
    let (length, stay) ← inputLength
    return .input into length stay (← clause? statement ⟨"INPUT", opener.span⟩)

def data : Parser Form := do
  return .data (← commaList expression)

def switch (device : Device) : Parser Form := do
  if ← acceptKeyword .ON then return .switch device .on
  else if ← acceptKeyword .OFF then return .switch device .off
  else expected "ON or OFF"

/-- Up to three operands of a record operation. -/
def recordPath (ofAttr : Bool) : Parser RecordPath := do
  let a ← expression
  match ← afterComma? expression with
  | none => return ⟨none, a, none⟩
  | some b =>
    match ← afterComma? expression with
    | none => return if ofAttr then ⟨none, a, some b⟩ else ⟨some a, b, none⟩
    | some c => return ⟨some a, b, some c⟩

/-- The `ON` or `TO` before the place that a value goes to. -/
def destination : Parser Unit := do
  if ← acceptKeyword .ON then return ()
  else if ← acceptKeyword .TO then return ()
  else expected "ON or TO"

def openFile (statement : Parser Statement) (opener : Token) : Parser Form := do
  let a ← expression
  let b ← afterComma? expression
  let into ← afterKeyword? .TO (name "file variable")
  let onError ← onErrorClause statement
  let clause ← requiredClause statement ⟨"OPEN", opener.span⟩
  match b with
  | some file => return .openFile (some a) file into onError clause
  | none => return .openFile none a into onError clause

def read (statement : Parser Statement) (mode : RecordMode) (opener : Token) : Parser Form := do
  let into ← name "variable name"
  let _ ← requireKeyword .FROM
  let path ← recordPath mode.addressesAttr
  let onError ← onErrorClause statement
  let locked ← lockedClause statement
  let clause ← clause? statement ⟨"READ" ++ mode.suffix, opener.span⟩
  return .read mode into path onError locked clause

def write (statement : Parser Statement) (mode : RecordMode) : Parser Form := do
  let value ← expression
  destination
  let path ← recordPath mode.addressesAttr
  return .write mode value path (← onErrorClause statement)

def delete (statement : Parser Statement) (opener : Token) : Parser Form := do
  let path ← recordPath false
  let onError ← onErrorClause statement
  return .delete path onError (← clause? statement ⟨"DELETE", opener.span⟩)

/-- The keyword that receives from the feed. -/
def feedWord : Feed → Keyword
  | .selectList => .READNEXT
  | .tape => .READT
  | .procBuffer => .PROCREAD

def receive (statement : Parser Statement) (feed : Feed) (opener : Token) : Parser Form := do
  let into ← name "variable name"
  return .receive feed into (← clause? statement ⟨(feedWord feed).spelling, opener.span⟩)

def writeTape : Parser Form := do
  let value ← expression
  destination
  return .writeTape value (← expression)

def select : Parser Form := do
  let source ← expression?
  return .select source (← afterKeyword? .TO (name "list variable"))

def lock (statement : Parser Statement) (opener : Token) : Parser Form := do
  let number ← expression
  let locked ← lockedClause statement
  return .lock number locked (← clause? statement ⟨"LOCK", opener.span⟩)

def clearFile (statement : Parser Statement) : Parser Form := do
  let file ← expression
  return .clearFile file (← onErrorClause statement)

def matRead (statement : Parser Statement) (locking : Bool) (opener : Token) : Parser Form := do
  let array ← name "array name"
  let _ ← requireKeyword .FROM
  let path ← recordPath false
  let onError ← onErrorClause statement
  let locked ← lockedClause statement
  let owner : Owner := ⟨if locking then "MATREADU" else "MATREAD", opener.span⟩
  return .matRead locking array path onError locked (← clause? statement owner)

def matWrite (statement : Parser Statement) (locking : Bool) : Parser Form := do
  let array ← name "array name"
  destination
  let path ← recordPath false
  return .matWrite locking array path (← onErrorClause statement)

def locate (statement : Parser Statement) (opener : Token) : Parser Form := do
  let value ← expression
  let _ ← requireKeyword .IN
  let container ← expression
  let setting ← afterKeyword? .SETTING (name "variable name")
  return .locate value container setting (← clause? statement ⟨"LOCATE", opener.span⟩)

def inputTrap : Parser Form := do
  let keys ← expression
  return .inputTrap keys (← afterComma? target)

def execute : Parser Form := do
  let command ← expression
  let capturing ← afterKeyword? .CAPTURING (name "variable name")
  let returning ← afterKeyword? .RETURNING (name "variable name")
  return .execute command capturing returning

/-- The name after `CALL`, and whether a system variable holds it. -/
def calledName : Parser (String × Bool) := do
  if (← look).isAtOnLine .systemName then return (systemName (← next).text, true)
  else return (← name "subroutine name", false)

/-- The arguments of a called program, which may stand apart from its name. -/
def callArguments : Parser (List Expr) := do
  if ← acceptSymbol .leftParen then arguments expressionAt else return []

def call : Parser Form := do
  let (callee, indirect) ← calledName
  return .call callee indirect (← callArguments)

def operandOf (verb : OperandVerb) : Parser Form := do
  return .operand verb (← expression)

def optionalOf (verb : OptionalVerb) : Parser Form := do
  return .optional verb (← expression?)

end PickSyntax.Grammar
