import PickSyntax.Proofs.Expression.Ranked
import PickSyntax.Tree.Statement

/-!
# The expressions of a tree

Every expression of a program, at any depth, with the offset where the statement that holds
it begins. Statements hold expressions directly, in guards and paths, and in the conditions
of their cases; those of a nested statement belong to that statement.
-/
namespace PickSyntax

/-- An expression held by a statement that begins at `start`. -/
structure Placed where
  start : Nat
  expr : Expr

/-- The expressions of one statement. -/
def placedAt (start : Nat) (es : List Expr) : List Placed := es.map (Placed.mk start)

def RecordPath.exprs (path : RecordPath) : List Expr :=
  path.file.toList ++ path.key :: path.attr.toList

def ArrayBounds.exprs (d : ArrayBounds) : List Expr := d.rows :: d.columns.toList

mutual

def Item.placed : Item → List Placed
  | .statement s => s.placed
  | .label _ => []
  | .comment _ => []

def Item.placedAll : List Item → List Placed
  | [] => []
  | i :: is => i.placed ++ Item.placedAll is

def Item.placedAll? : Option (List Item) → List Placed
  | none => []
  | some body => Item.placedAll body

def Statement.placed : Statement → List Placed
  | ⟨form, span⟩ => form.placed span.start

def Statement.placed? : Option Statement → List Placed
  | none => []
  | some s => s.placed

def Clause.placed : Clause → List Placed
  | ⟨thenBody, elseBody, _⟩ => Item.placedAll? thenBody ++ Item.placedAll? elseBody

def Clause.placed? : Option Clause → List Placed
  | none => []
  | some c => c.placed

def CaseArm.placed (start : Nat) : CaseArm → List Placed
  | ⟨condition, body, _⟩ => ⟨start, condition⟩ :: Item.placedAll body

def CaseArm.placedAll (start : Nat) : List CaseArm → List Placed
  | [] => []
  | c :: cs => c.placed start ++ CaseArm.placedAll start cs

def Form.placed (start : Nat) : Form → List Placed
  | .subroutine _ _ | .endUnit | .common _ _ | .jump _ _ | .returnTo _ | .switch _ _
  | .bare _ => []
  | .dim arrays => placedAt start (arrays.flatMap ArrayBounds.exprs)
  | .equate _ _ value | .mat _ value | .operand _ value | .expression value =>
    placedAt start [value]
  | .assignment target value => placedAt start [target, value]
  | .ifThen condition clause => ⟨start, condition⟩ :: clause.placed
  | .beginCase cases => CaseArm.placedAll start cases
  | .forNext _ first limit step guard body _ =>
    placedAt start (first :: limit :: (step.toList ++ (guard.map LoopGuard.condition).toList)) ++
      Item.placedAll body
  | .loop before guard after =>
    Item.placedAll before ++
      (placedAt start (guard.map LoopGuard.condition).toList ++ Item.placedAll after)
  | .jumpOn selector _ _ => placedAt start [selector]
  | .print channel items => placedAt start (channel.toList ++ items.map PrintEntry.expr)
  | .crt items => placedAt start (items.map PrintEntry.expr)
  | .input _ length _ clause => placedAt start length.toList ++ Clause.placed? clause
  | .inputAt column row _ length _ clause =>
    placedAt start (column :: row :: length.toList) ++ Clause.placed? clause
  | .inputTrap keys _ => placedAt start [keys]
  | .data values => placedAt start values
  | .openFile dictionary file _ onError clause =>
    placedAt start (dictionary.toList ++ [file]) ++ (Statement.placed? onError ++ clause.placed)
  | .read _ _ path onError locked clause | .matRead _ _ path onError locked clause =>
    placedAt start path.exprs ++
      (Statement.placed? onError ++ (Statement.placed? locked ++ Clause.placed? clause))
  | .write _ value path onError => placedAt start (value :: path.exprs) ++ Statement.placed? onError
  | .delete path onError clause =>
    placedAt start path.exprs ++ (Statement.placed? onError ++ Clause.placed? clause)
  | .receive _ _ clause => Clause.placed? clause
  | .writeTape value device => placedAt start [value, device]
  | .select source _ => placedAt start source.toList
  | .lock lock locked clause =>
    placedAt start [lock] ++ (Statement.placed? locked ++ Clause.placed? clause)
  | .clearFile file onError => placedAt start [file] ++ Statement.placed? onError
  | .matWrite _ _ path onError => placedAt start path.exprs ++ Statement.placed? onError
  | .locate value container _ clause => placedAt start [value, container] ++ Clause.placed? clause
  | .execute command _ _ => placedAt start [command]
  | .call _ _ args => placedAt start args
  | .optional _ value => placedAt start value.toList

end

/-- The expressions of a program. -/
def Program.placed (p : Program) : List Placed := Item.placedAll p.items

end PickSyntax
