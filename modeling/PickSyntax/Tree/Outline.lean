import PickSyntax.Sexp
import PickSyntax.Tree.Statement

/-!
# The outline of a tree

An outline shows the structure of a program and leaves out its texts: names and
literals become bare nodes, operators keep one spelling each, and every child is
labelled with what it is to its parent. Fields that are absent are left out, and so
are the layout of clauses and the states of switches.
-/
namespace PickSyntax

open PickSyntax.Sexp (leaf)

/-- A child that is a name. -/
def nameField (label : String) : Sexp := .labelled label (leaf "identifier")

/-- A name that may be absent. -/
def nameField? (label : String) : Option String → List Sexp
  | none => []
  | some _ => [nameField label]

def operatorField (spelling : String) : Sexp := .labelled "operator" (.quoted spelling)

namespace Expr

mutual

def outline : Expr → Sexp
  | .binary left op right _ =>
    .node "binary_expression"
      [.labelled "left" left.outline, operatorField op.spelling, .labelled "right" right.outline]
  | .unary op operand _ =>
    .node "unary_expression" [operatorField op.spelling, .labelled "operand" operand.outline]
  | .name _ _ => leaf "identifier"
  | .number _ _ => leaf "number"
  | .string _ _ _ => leaf "string"
  | .call _ args _ => .node "function_call" (nameField "name" :: outlines args)
  | .dynamic _ attr value subValue _ =>
    .node "dynamic_array_ref"
      (nameField "name" :: .labelled "attribute" attr.outline ::
        (field? "value" value ++ field? "sub_value" subValue))
  | .substring _ start length _ =>
    .node "substring_ref"
      (nameField "name" :: .labelled "start" start.outline :: field? "length" length)
  | .cursor column row _ =>
    .node "at_expression" (.labelled "column" column.outline :: field? "row" row)
  | .system _ _ => leaf "at_variable"
  | .paren inner _ => .node "paren_expression" [inner.outline]

def outlines : List Expr → List Sexp
  | [] => []
  | e :: es => e.outline :: outlines es

/-- An operand that may be absent. -/
def field? (label : String) : Option Expr → List Sexp
  | none => []
  | some e => [.labelled label e.outline]

end

def field (label : String) (e : Expr) : Sexp := .labelled label e.outline

end Expr

open PickSyntax.Expr (field field? outlines)

def Target.outline (t : Target) : Sexp :=
  leaf (if t.numeric then "label_name" else "identifier")

def ArrayBounds.outline (d : ArrayBounds) : Sexp :=
  .node "dim_spec" (nameField "name" :: field "rows" d.rows :: field? "columns" d.columns)

def RecordPath.outline (a : RecordPath) : List Sexp :=
  field? "file" a.file ++ field "key" a.key :: field? "attribute" a.attr

def LoopGuard.outline? : Option LoopGuard → List Sexp
  | none => []
  | some g => [field "condition" g.condition]

/-- An empty print list leaves no node. -/
def PrintEntry.outline : List PrintEntry → List Sexp
  | [] => []
  | items => [.node "print_list" (items.map fun i => i.expr.outline)]

mutual

def Item.outline : Item → Sexp
  | .statement s => s.outline
  | .label _ => .node "label" [.labelled "name" (leaf "label_name")]
  | .comment _ => leaf "comment"

def Item.outlines : List Item → List Sexp
  | [] => []
  | i :: is => i.outline :: Item.outlines is

/-- A body that may be absent, under a node of its own. -/
def Item.outlineBody? (node : String) : Option (List Item) → List Sexp
  | none => []
  | some body => [.node node (Item.outlines body)]

def Statement.outline : Statement → Sexp
  | ⟨form, _⟩ => .node form.nodeName form.outline

/-- A statement that may be absent, under a node of its own. -/
def Statement.outlineClause? (node : String) : Option Statement → List Sexp
  | none => []
  | some s => [.node node [s.outline]]

def Clause.outline : Clause → List Sexp
  | ⟨thenBody, elseBody, _⟩ =>
    Item.outlineBody? "then_clause" thenBody ++ Item.outlineBody? "else_clause" elseBody

def Clause.outline? : Option Clause → List Sexp
  | none => []
  | some c => c.outline

def CaseArm.outline : CaseArm → Sexp
  | ⟨condition, body, _⟩ =>
    .node "case_clause" (field "condition" condition :: Item.outlines body)

def CaseArm.outlines : List CaseArm → List Sexp
  | [] => []
  | c :: cs => c.outline :: CaseArm.outlines cs

/-- The children of the statement's node. -/
def Form.outline : Form → List Sexp
  | .subroutine name params => nameField? "name" name ++ params.map fun _ => nameField "parameter"
  | .endUnit => []
  | .dim arrays => arrays.map ArrayBounds.outline
  | .common block names => nameField? "block" block ++ names.map fun _ => nameField "variable"
  | .equate _ _ value => [nameField "name", field "value" value]
  | .assignment target value => [field "target" target, field "value" value]
  | .mat _ value => [nameField "array", field "value" value]
  | .ifThen condition clause => field "condition" condition :: clause.outline
  | .beginCase cases => CaseArm.outlines cases
  | .forNext _ start limit step guard body nextName =>
    nameField "variable" :: field "start" start :: field "end" limit :: field? "step" step
      ++ LoopGuard.outline? guard ++ Item.outlines body ++ nameField? "next" nextName
  | .loop before guard after =>
    (if before.isEmpty then [] else [.node "loop_body_before" (Item.outlines before)])
      ++ LoopGuard.outline? guard
      ++ (if after.isEmpty then [] else [.node "loop_body_after" (Item.outlines after)])
  | .jump _ target => [target.outline]
  | .jumpOn selector _ targets => field "selector" selector :: targets.map Target.outline
  | .returnTo target => (target.map Target.outline).toList
  | .print channel items => field? "channel" channel ++ PrintEntry.outline items
  | .crt items => PrintEntry.outline items
  | .input _ length _ clause =>
    nameField "variable" :: field? "length" length ++ Clause.outline? clause
  | .inputAt column row _ length _ clause =>
    field "column" column :: field "row" row :: nameField "variable" :: field? "length" length
      ++ Clause.outline? clause
  | .inputTrap keys target => field "keys" keys :: (target.map Target.outline).toList
  | .data values => outlines values
  | .switch _ _ => []
  | .openFile dictionary file name onError clause =>
    field? "dictionary" dictionary ++ field "file_name" file :: nameField? "variable" name
      ++ Statement.outlineClause? "on_error_clause" onError ++ clause.outline
  | .read _ _ path onError locked clause =>
    nameField "variable" :: path.outline
      ++ Statement.outlineClause? "on_error_clause" onError
      ++ Statement.outlineClause? "locked_clause" locked ++ Clause.outline? clause
  | .write _ value path onError =>
    field "value" value :: path.outline ++ Statement.outlineClause? "on_error_clause" onError
  | .delete path onError clause =>
    path.outline ++ Statement.outlineClause? "on_error_clause" onError ++ Clause.outline? clause
  | .receive _ _ clause => nameField "variable" :: Clause.outline? clause
  | .writeTape value device => [field "value" value, field "unit" device]
  | .select source list => field? "source" source ++ nameField? "list" list
  | .lock lock locked clause =>
    field "lock" lock :: Statement.outlineClause? "locked_clause" locked ++ Clause.outline? clause
  | .clearFile file onError =>
    field "file" file :: Statement.outlineClause? "on_error_clause" onError
  | .matRead _ _ path onError locked clause =>
    nameField "array" :: path.outline
      ++ Statement.outlineClause? "on_error_clause" onError
      ++ Statement.outlineClause? "locked_clause" locked ++ Clause.outline? clause
  | .matWrite _ _ path onError =>
    nameField "array" :: path.outline ++ Statement.outlineClause? "on_error_clause" onError
  | .locate value container setting clause =>
    field "value" value :: field "dynamic_array" container :: nameField? "setting" setting
      ++ Clause.outline? clause
  | .execute command capturing returning =>
    field "command" command :: nameField? "capturing" capturing
      ++ nameField? "returning" returning
  | .call _ indirect args =>
    .labelled "name" (leaf (if indirect then "at_variable" else "identifier")) :: outlines args
  | .operand verb value => [field verb.role value]
  | .optional verb value => field? verb.role value
  | .bare _ => []
  | .expression expr => [expr.outline]

end

def Program.outline (p : Program) : Sexp := .node "source_file" (Item.outlines p.items)

end PickSyntax
