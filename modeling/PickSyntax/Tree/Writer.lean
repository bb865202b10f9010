import PickSyntax.Tree.Statement

/-!
# Writing a tree

A tree is written as one line of text in a single pass, without building its outline first.
The writer holds nothing but the text so far. A node that is opened looks at the last
character: a blank goes before the node unless one stands there already. Everything else
that is separated brings its own blank: labels, operators, and the operands of a list.
-/
namespace PickSyntax

/-- A step that writes. The state is the text so far, its last character first. -/
abbrev Writing := StateM (List Char) Unit

namespace Writing

def put (text : String) : Writing := modify (text.toList.reverse ++ ·)

/-- A blank before a node, unless the node comes first of all, or first inside a parenthesis,
or a blank stands there. -/
def separate : Writing := modify fun written =>
  match written with
  | [] | '(' :: _ | ' ' :: _ => written
  | _ => ' ' :: written

def openNode (name : String) : Writing := do
  separate
  put "("
  put name

def closeNode : Writing := put ")"

/-- A node, with what its fields write inside. -/
def node (name : String) (fields : Writing) : Writing := do
  openNode name
  fields
  closeNode

def leaf (name : String) : Writing := do
  openNode name
  closeNode

def label (text : String) : Writing := do
  put " "
  put text
  put ": "

/-- A node that is labelled. -/
def labelled (text : String) (node : Writing) : Writing := do
  label text
  node

/-- A node without a label, with a blank before it. -/
def spaced (node : Writing) : Writing := do
  put " "
  node

def putName (text : String) : Writing := labelled text (leaf "identifier")

def putName? (text : String) : Option String → Writing
  | none => pure ()
  | some _ => putName text

def operator (spelling : String) : Writing := do
  put " operator: \""
  put spelling
  put "\""

/-- A part that is left out of a tree together with its items. -/
def unlessEmpty {α : Type} (items : List α) (w : Writing) : Writing :=
  if items.isEmpty then pure () else w

/-- The text that a step writes when it comes first of all. -/
def text (w : Writing) : String := String.ofList (w.run []).2.reverse

end Writing

open Writing

namespace Expr

mutual

/-- What is written inside the node of an expression. -/
def fields : Expr → Writing
  | .binary left op right _ => do
    labelled "left" (node left.nodeName left.fields)
    operator op.spelling
    labelled "right" (node right.nodeName right.fields)
  | .unary op operand _ => do
    operator op.spelling
    labelled "operand" (node operand.nodeName operand.fields)
  | .name _ _ | .number _ _ | .string _ _ _ | .system _ _ => pure ()
  | .call _ args _ => do
    putName "name"
    writeAll args
  | .dynamic _ attr value subValue _ => do
    putName "name"
    labelled "attribute" (node attr.nodeName attr.fields)
    writeField? "value" value
    writeField? "sub_value" subValue
  | .substring _ start length _ => do
    putName "name"
    labelled "start" (node start.nodeName start.fields)
    writeField? "length" length
  | .cursor column row _ => do
    labelled "column" (node column.nodeName column.fields)
    writeField? "row" row
  | .paren inner _ => spaced (node inner.nodeName inner.fields)

/-- Expressions without labels, each with a blank before it. -/
def writeAll : List Expr → Writing
  | [] => pure ()
  | e :: es => do
    spaced (node e.nodeName e.fields)
    writeAll es

def writeField? (text : String) : Option Expr → Writing
  | none => pure ()
  | some e => labelled text (node e.nodeName e.fields)

end

def write (e : Expr) : Writing := node e.nodeName e.fields

def writeField (text : String) (e : Expr) : Writing := labelled text e.write

end Expr

open PickSyntax.Expr (writeField writeField?)

def Target.write (t : Target) : Writing :=
  if t.numeric then leaf "label_name" else leaf "identifier"

def Target.write? : Option Target → Writing
  | none => pure ()
  | some t => t.write

def ArrayBounds.write (d : ArrayBounds) : Writing := node "dim_spec" do
  putName "name"
  writeField "rows" d.rows
  writeField? "columns" d.columns

def RecordPath.write (path : RecordPath) : Writing := do
  writeField? "file" path.file
  writeField "key" path.key
  writeField? "attribute" path.attr

def LoopGuard.write? : Option LoopGuard → Writing
  | none => pure ()
  | some g => writeField "condition" g.condition

/-- An empty print list leaves no node. -/
def PrintEntry.writeAll (items : List PrintEntry) : Writing :=
  unlessEmpty items (node "print_list" (items.forM fun i => spaced i.expr.write))

mutual

def Item.write : Item → Writing
  | .statement s => s.write
  | .label _ => node "label" (put " name: (label_name)")
  | .comment _ => leaf "comment"

def Item.writeAll : List Item → Writing
  | [] => pure ()
  | i :: is => do
    i.write
    Item.writeAll is

/-- A body that may be absent, under a node of its own. -/
def Item.writeBody? (name : String) : Option (List Item) → Writing
  | none => pure ()
  | some body => node name (Item.writeAll body)

def Statement.write : Statement → Writing
  | ⟨form, _⟩ => node form.nodeName form.fields

/-- A statement that may be absent, under a node of its own. -/
def Statement.writeClause? (name : String) : Option Statement → Writing
  | none => pure ()
  | some s => node name s.write

def Clause.write : Clause → Writing
  | ⟨thenBody, elseBody, _⟩ => do
    Item.writeBody? "then_clause" thenBody
    Item.writeBody? "else_clause" elseBody

def Clause.write? : Option Clause → Writing
  | none => pure ()
  | some c => c.write

def CaseArm.write : CaseArm → Writing
  | ⟨condition, body, _⟩ => node "case_clause" do
    writeField "condition" condition
    Item.writeAll body

def CaseArm.writeAll : List CaseArm → Writing
  | [] => pure ()
  | c :: cs => do
    c.write
    CaseArm.writeAll cs

/-- What is written inside the node of a statement. -/
def Form.fields : Form → Writing
  | .subroutine name params => do
    putName? "name" name
    params.forM fun _ => putName "parameter"
  | .endUnit | .switch _ _ | .bare _ => pure ()
  | .dim arrays => arrays.forM ArrayBounds.write
  | .common block names => do
    putName? "block" block
    names.forM fun _ => putName "variable"
  | .equate _ _ value => do
    putName "name"
    writeField "value" value
  | .assignment target value => do
    writeField "target" target
    writeField "value" value
  | .mat _ value => do
    putName "array"
    writeField "value" value
  | .ifThen condition clause => do
    writeField "condition" condition
    clause.write
  | .beginCase cases => CaseArm.writeAll cases
  | .forNext _ start limit step guard body nextName => do
    putName "variable"
    writeField "start" start
    writeField "end" limit
    writeField? "step" step
    LoopGuard.write? guard
    Item.writeAll body
    putName? "next" nextName
  | .loop before guard after => do
    unlessEmpty before (node "loop_body_before" (Item.writeAll before))
    LoopGuard.write? guard
    unlessEmpty after (node "loop_body_after" (Item.writeAll after))
  | .jump _ target => target.write
  | .jumpOn selector _ targets => do
    writeField "selector" selector
    targets.forM Target.write
  | .returnTo target => Target.write? target
  | .print channel items => do
    writeField? "channel" channel
    PrintEntry.writeAll items
  | .crt items => PrintEntry.writeAll items
  | .input _ length _ clause => do
    putName "variable"
    writeField? "length" length
    Clause.write? clause
  | .inputAt column row _ length _ clause => do
    writeField "column" column
    writeField "row" row
    putName "variable"
    writeField? "length" length
    Clause.write? clause
  | .inputTrap keys target => do
    writeField "keys" keys
    Target.write? target
  | .data values => Expr.writeAll values
  | .openFile dictionary file name onError clause => do
    writeField? "dictionary" dictionary
    writeField "file_name" file
    putName? "variable" name
    Statement.writeClause? "on_error_clause" onError
    clause.write
  | .read _ _ path onError locked clause => do
    putName "variable"
    path.write
    Statement.writeClause? "on_error_clause" onError
    Statement.writeClause? "locked_clause" locked
    Clause.write? clause
  | .write _ value path onError => do
    writeField "value" value
    path.write
    Statement.writeClause? "on_error_clause" onError
  | .delete path onError clause => do
    path.write
    Statement.writeClause? "on_error_clause" onError
    Clause.write? clause
  | .receive _ _ clause => do
    putName "variable"
    Clause.write? clause
  | .writeTape value device => do
    writeField "value" value
    writeField "unit" device
  | .select source list => do
    writeField? "source" source
    putName? "list" list
  | .lock lock locked clause => do
    writeField "lock" lock
    Statement.writeClause? "locked_clause" locked
    Clause.write? clause
  | .clearFile file onError => do
    writeField "file" file
    Statement.writeClause? "on_error_clause" onError
  | .matRead _ _ path onError locked clause => do
    putName "array"
    path.write
    Statement.writeClause? "on_error_clause" onError
    Statement.writeClause? "locked_clause" locked
    Clause.write? clause
  | .matWrite _ _ path onError => do
    putName "array"
    path.write
    Statement.writeClause? "on_error_clause" onError
  | .locate value container setting clause => do
    writeField "value" value
    writeField "dynamic_array" container
    putName? "setting" setting
    Clause.write? clause
  | .execute command capturing returning => do
    writeField "command" command
    putName? "capturing" capturing
    putName? "returning" returning
  | .call _ indirect args => do
    labelled "name" (leaf (if indirect then "at_variable" else "identifier"))
    Expr.writeAll args
  | .operand verb value => writeField verb.role value
  | .optional verb value => writeField? verb.role value
  | .expression expr => spaced expr.write

end

def Program.write (p : Program) : Writing := node "source_file" (Item.writeAll p.items)

/-- The outline of a program as one line of text. -/
def Program.toSexp (p : Program) : String := p.write.text

end PickSyntax
