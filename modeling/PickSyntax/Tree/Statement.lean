import PickSyntax.Tree.Expr

/-!
# Statements and programs

A program is a list of items: statements, numeric labels, and the comments that
stand where a statement could. Statements that say the same kind of thing share a
form: eleven verbs take one operand, six take an optional one, three take none.
Bodies of blocks are item lists again, so items, statements and clauses are
declared together.

The types are plain data. What the parser guarantees beyond them, such as a clause
having at least one branch, is a property of its results.
-/
namespace PickSyntax

/-- A numeric label with its digits as written. -/
structure Label where
  name : String
  span : Span
  deriving DecidableEq, Repr, Inhabited

/-- Where a jump leads: one name or one number. -/
structure Target where
  name : String
  numeric : Bool
  span : Span
  deriving DecidableEq, Repr, Inhabited

/-- A clause is written on one line, or as a block that `END` closes. -/
inductive ClauseLayout where
  | inline | block
  deriving DecidableEq, Repr, Inhabited

inductive GuardSense where
  | whileTrue | untilTrue
  deriving DecidableEq, Repr, Inhabited

/-- The word `WHILE` or `UNTIL` with its condition. -/
structure LoopGuard where
  sense : GuardSense
  condition : Expr
  deriving Repr, Inhabited

/-- One array of a `DIM` statement. -/
structure ArrayBounds where
  name : String
  rows : Expr
  columns : Option Expr
  span : Span
  deriving Repr, Inhabited

inductive EquateSense where
  | to | literally
  deriving DecidableEq, Repr, Inhabited

inductive JumpKind where
  | goto | gosub
  deriving DecidableEq, Repr, Inhabited

/-- What is written after an item of a print list. -/
inductive Separator where
  | comma | colon
  deriving DecidableEq, Repr, Inhabited

structure PrintEntry where
  expr : Expr
  separator : Option Separator
  deriving Repr, Inhabited

/-- The four spellings of `READ` and `WRITE`: with `U` the record stays locked, with
`V` one attribute of it is meant. -/
inductive RecordMode where
  | plain | locking | attr | lockingAttr
  deriving DecidableEq, Repr, Inhabited

namespace RecordMode

def all : List RecordMode := [.plain, .locking, .attr, .lockingAttr]

/-- The letters after `READ` and `WRITE`. -/
def suffix : RecordMode → String
  | .plain => ""
  | .locking => "U"
  | .attr => "V"
  | .lockingAttr => "VU"

def addressesAttr : RecordMode → Bool
  | .attr | .lockingAttr => true
  | _ => false

end RecordMode

/-- The operands `file, key, attribute` of a record operation, of which only the key
is always there. -/
structure RecordPath where
  file : Option Expr
  key : Expr
  attr : Option Expr
  deriving Repr, Inhabited

inductive Device where
  | printer | breakKey | echo
  deriving DecidableEq, Repr, Inhabited

inductive SwitchState where
  | on | off
  deriving DecidableEq, Repr, Inhabited

/-- Where a value is received from when the statement names only a variable. -/
inductive Feed where
  | selectList | tape | procBuffer
  deriving DecidableEq, Repr, Inhabited

/-- Verbs with exactly one operand. -/
inductive OperandVerb where
  | inputErr | inputNull | prompt | heading | footing | unlock | procWrite | weof | chain
  | enter | precision
  deriving DecidableEq, Repr, Inhabited

/-- Verbs with at most one operand. -/
inductive OptionalVerb where
  | stop | abort | page | release | rewind | sleep
  deriving DecidableEq, Repr, Inhabited

/-- Verbs without operands. -/
inductive BareVerb where
  | rqm | null | clear
  deriving DecidableEq, Repr, Inhabited

mutual

/-- One entry of a statement list. -/
inductive Item where
  | statement (statement : Statement)
  | label (label : Label)
  | comment (comment : Comment)

structure Statement where
  form : Form
  span : Span

/-- The `THEN` and `ELSE` branches of a statement. -/
structure Clause where
  thenBody : Option (List Item)
  elseBody : Option (List Item)
  layout : ClauseLayout

/-- One `CASE` of a `BEGIN CASE` block. -/
structure CaseArm where
  condition : Expr
  body : List Item
  span : Span

inductive Form where
  | subroutine (name : Option String) (params : List String)
  /-- An `END` that closes no block. -/
  | endUnit
  | dim (arrays : List ArrayBounds)
  /-- Shared variables, `COMMON /block/ names`. -/
  | common (block : Option String) (names : List String)
  | equate (name : String) (sense : EquateSense) (value : Expr)
  | assignment (target value : Expr)
  | mat (array : String) (value : Expr)
  | ifThen (condition : Expr) (clause : Clause)
  | beginCase (cases : List CaseArm)
  | forNext (counter : String) (start limit : Expr) (step : Option Expr)
      (guard : Option LoopGuard) (body : List Item) (nextName : Option String)
  /-- The items before the guard, the guard, and the items after it. -/
  | loop (before : List Item) (guard : Option LoopGuard) (after : List Item)
  | jump (kind : JumpKind) (target : Target)
  | jumpOn (selector : Expr) (kind : JumpKind) (targets : List Target)
  | returnTo (target : Option Target)
  | print (channel : Option Expr) (items : List PrintEntry)
  | crt (items : List PrintEntry)
  /-- With `stay` the line is not ended after the input. -/
  | input (name : String) (length : Option Expr) (stay : Bool) (clause : Option Clause)
  | inputAt (column row : Expr) (name : String) (length : Option Expr) (stay : Bool)
      (clause : Option Clause)
  | inputTrap (keys : Expr) (target : Option Target)
  | data (values : List Expr)
  | switch (device : Device) (state : SwitchState)
  | openFile (dictionary : Option Expr) (file : Expr) (name : Option String)
      (onError : Option Statement) (clause : Clause)
  | read (mode : RecordMode) (name : String) (path : RecordPath)
      (onError locked : Option Statement) (clause : Option Clause)
  | write (mode : RecordMode) (value : Expr) (path : RecordPath)
      (onError : Option Statement)
  | delete (path : RecordPath) (onError : Option Statement) (clause : Option Clause)
  | receive (feed : Feed) (name : String) (clause : Option Clause)
  | writeTape (value device : Expr)
  | select (source : Option Expr) (list : Option String)
  | lock (lock : Expr) (locked : Option Statement) (clause : Option Clause)
  | clearFile (file : Expr) (onError : Option Statement)
  | matRead (locking : Bool) (array : String) (path : RecordPath)
      (onError locked : Option Statement) (clause : Option Clause)
  | matWrite (locking : Bool) (array : String) (path : RecordPath)
      (onError : Option Statement)
  | locate (value container : Expr) (setting : Option String) (clause : Option Clause)
  | execute (command : Expr) (capturing returning : Option String)
  /-- With `indirect` the name is that of a system variable holding the name. -/
  | call (name : String) (indirect : Bool) (args : List Expr)
  | operand (verb : OperandVerb) (value : Expr)
  | optional (verb : OptionalVerb) (value : Option Expr)
  | bare (verb : BareVerb)
  /-- Any other expression in the place of a statement. -/
  | expression (expr : Expr)

end

structure Program where
  items : List Item

namespace Item

def span : Item → Span
  | .statement s => s.span
  | .label l => l.span
  | .comment c => c.span

def statement? : Item → Option Statement
  | .statement s => some s
  | _ => none

end Item

/-- The top-level statements, without labels and comments. -/
def Program.statements (p : Program) : List Statement := p.items.filterMap Item.statement?

namespace OperandVerb

def nodeName : OperandVerb → String
  | .inputErr => "inputerr_statement"
  | .inputNull => "inputnull_statement"
  | .prompt => "prompt_statement"
  | .heading => "heading_statement"
  | .footing => "footing_statement"
  | .unlock => "unlock_statement"
  | .procWrite => "procwrite_statement"
  | .weof => "weof_statement"
  | .chain => "chain_statement"
  | .enter => "enter_statement"
  | .precision => "precision_statement"

/-- What the operand is to the verb. -/
def role : OperandVerb → String
  | .inputErr => "message"
  | .inputNull | .prompt | .procWrite => "value"
  | .heading | .footing => "text"
  | .unlock => "lock"
  | .weof => "unit"
  | .chain => "command"
  | .enter => "program"
  | .precision => "digits"

end OperandVerb

namespace OptionalVerb

def nodeName : OptionalVerb → String
  | .stop => "stop_statement"
  | .abort => "abort_statement"
  | .page => "page_statement"
  | .release => "release_statement"
  | .rewind => "rewind_statement"
  | .sleep => "sleep_statement"

/-- What the operand is to the verb. -/
def role : OptionalVerb → String
  | .stop | .abort => "message"
  | .page => "number"
  | .release => "target"
  | .rewind => "unit"
  | .sleep => "duration"

end OptionalVerb

def BareVerb.nodeName : BareVerb → String
  | .rqm => "rqm_statement"
  | .null => "null_statement"
  | .clear => "clear_statement"

def Device.nodeName : Device → String
  | .printer => "printer_statement"
  | .breakKey => "break_statement"
  | .echo => "echo_statement"

def Feed.nodeName : Feed → String
  | .selectList => "readnext_statement"
  | .tape => "readt_statement"
  | .procBuffer => "procread_statement"

def JumpKind.nodeName : JumpKind → String
  | .goto => "goto_statement"
  | .gosub => "gosub_statement"

/-- The name of the node in the outline of a tree. -/
def Form.nodeName : Form → String
  | .subroutine .. => "subroutine_statement"
  | .endUnit => "end_statement"
  | .dim .. => "dim_statement"
  | .common .. => "common_statement"
  | .equate .. => "equate_statement"
  | .assignment .. => "assignment_statement"
  | .mat .. => "mat_statement"
  | .ifThen .. => "if_statement"
  | .beginCase .. => "begin_case_statement"
  | .forNext .. => "for_statement"
  | .loop .. => "loop_statement"
  | .jump kind _ => kind.nodeName
  | .jumpOn .. => "on_goto_statement"
  | .returnTo .. => "return_statement"
  | .print .. => "print_statement"
  | .crt .. => "crt_statement"
  | .input .. => "input_statement"
  | .inputAt .. => "input_at_statement"
  | .inputTrap .. => "inputtrap_statement"
  | .data .. => "data_statement"
  | .switch device _ => device.nodeName
  | .openFile .. => "open_statement"
  | .read .. => "read_statement"
  | .write .. => "write_statement"
  | .delete .. => "delete_statement"
  | .receive feed _ _ => feed.nodeName
  | .writeTape .. => "writet_statement"
  | .select .. => "select_statement"
  | .lock .. => "lock_statement"
  | .clearFile .. => "clearfile_statement"
  | .matRead .. => "matread_statement"
  | .matWrite .. => "matwrite_statement"
  | .locate .. => "locate_statement"
  | .execute .. => "execute_statement"
  | .call .. => "call_statement"
  | .operand verb _ => verb.nodeName
  | .optional verb _ => verb.nodeName
  | .bare verb => verb.nodeName
  | .expression .. => "expression_statement"

def Statement.nodeName (s : Statement) : String := s.form.nodeName

end PickSyntax
