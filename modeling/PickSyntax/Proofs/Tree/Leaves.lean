import PickSyntax.Grammar.Expression
import PickSyntax.Tree.Statement

/-!
# The leaves of a tree

A leaf is a piece of source text that a tree keeps: a name, a number, a string with its
delimiter, a system variable. Read from left to right, the leaves of a program are what its
tokens of these four kinds have become. Names that spell a keyword do not count, since a
tree cannot tell them from the keywords that it drops.

Fields are listed in the order in which a statement is written, which is not always the
order in which its form declares them.
-/
namespace PickSyntax

/-- A text that a tree keeps as it was written. -/
inductive Leaf where
  | name (text : String)
  | number (text : String)
  | string (quote : Quote) (value : String)
  | system (text : String)
  deriving DecidableEq, Repr

/-- The leaf of a name, unless it spells a keyword. -/
def nameLeaves (text : String) : List Leaf :=
  if (Keyword.ofWord? text.toList).isSome then [] else [.name text]

/-- A name that may be absent. -/
@[simp] def nameLeaves? : Option String → List Leaf
  | none => []
  | some text => nameLeaves text

/-- The leaf of a system variable named without its mark. -/
def systemLeaves (name : String) : List Leaf := [.system ("@" ++ name)]

/-- The leaf that a token is bound to become. -/
def Token.leaves (t : Token) : List Leaf :=
  match t.kind with
  | .identifier => [.name t.text]
  | .number => [.number t.text]
  | .string q => [.string q (String.ofList (Grammar.unquote q t.text.toList))]
  | .systemName => [.system t.text]
  | .keyword _ | .symbol _ => []

/-- The leaves of tokens in their order. -/
def leavesOf (ts : List Token) : List Leaf := ts.flatMap Token.leaves

@[simp] theorem leavesOf_nil : leavesOf [] = [] := rfl

@[simp] theorem leavesOf_cons (t : Token) (ts : List Token) :
    leavesOf (t :: ts) = t.leaves ++ leavesOf ts := by
  simp [leavesOf]

@[simp] theorem leavesOf_append (ts us : List Token) :
    leavesOf (ts ++ us) = leavesOf ts ++ leavesOf us := by
  simp [leavesOf]

namespace Expr

mutual

def leaves : Expr → List Leaf
  | .binary left _ right _ => left.leaves ++ right.leaves
  | .unary _ operand _ => operand.leaves
  | .name text _ => nameLeaves text
  | .number text _ => [.number text]
  | .string value q _ => [.string q value]
  | .call text args _ => nameLeaves text ++ leavesAll args
  | .dynamic text attr value subValue _ =>
    nameLeaves text ++ (attr.leaves ++ (leaves? value ++ leaves? subValue))
  | .substring text start length _ => nameLeaves text ++ (start.leaves ++ leaves? length)
  | .cursor column row _ => column.leaves ++ leaves? row
  | .system text _ => systemLeaves text
  | .paren inner _ => inner.leaves

def leavesAll : List Expr → List Leaf
  | [] => []
  | e :: es => e.leaves ++ leavesAll es

def leaves? : Option Expr → List Leaf
  | none => []
  | some e => e.leaves

end

attribute [simp] leaves leavesAll leaves?

@[simp] theorem leavesAll_append (es fs : List Expr) :
    leavesAll (es ++ fs) = leavesAll es ++ leavesAll fs := by
  induction es with
  | nil => rfl
  | cons e es ih => rw [List.cons_append, leavesAll, leavesAll, ih, List.append_assoc]

@[simp] theorem leavesAll_toList (e : Option Expr) : leavesAll e.toList = leaves? e := by
  cases e <;> simp [leaves?, leavesAll]

end Expr

open PickSyntax.Expr (leavesAll leaves?)

@[simp] def Target.leaves (t : Target) : List Leaf :=
  if t.numeric then [.number t.name] else nameLeaves t.name

@[simp] def ArrayBounds.leaves (d : ArrayBounds) : List Leaf :=
  nameLeaves d.name ++ (d.rows.leaves ++ leaves? d.columns)

@[simp] def RecordPath.leaves (a : RecordPath) : List Leaf :=
  leaves? a.file ++ (a.key.leaves ++ leaves? a.attr)

@[simp] def LoopGuard.leaves (g : LoopGuard) : List Leaf := g.condition.leaves

@[simp] def LoopGuard.leaves? : Option LoopGuard → List Leaf
  | none => []
  | some g => g.leaves

@[simp] def Label.leaves (l : Label) : List Leaf := [.number l.name]

mutual

def Item.leaves : Item → List Leaf
  | .statement s => s.leaves
  | .label l => l.leaves
  | .comment _ => []

def Item.leavesAll : List Item → List Leaf
  | [] => []
  | i :: is => i.leaves ++ Item.leavesAll is

def Item.leavesAll? : Option (List Item) → List Leaf
  | none => []
  | some body => Item.leavesAll body

def Statement.leaves : Statement → List Leaf
  | ⟨form, _⟩ => form.leaves

def Statement.leaves? : Option Statement → List Leaf
  | none => []
  | some s => s.leaves

def Clause.leaves : Clause → List Leaf
  | ⟨thenBody, elseBody, _⟩ => Item.leavesAll? thenBody ++ Item.leavesAll? elseBody

def Clause.leaves? : Option Clause → List Leaf
  | none => []
  | some c => c.leaves

def CaseArm.leaves : CaseArm → List Leaf
  | ⟨condition, body, _⟩ => condition.leaves ++ Item.leavesAll body

def CaseArm.leavesAll : List CaseArm → List Leaf
  | [] => []
  | c :: cs => c.leaves ++ CaseArm.leavesAll cs

def Form.leaves : Form → List Leaf
  | .subroutine name params => nameLeaves? name ++ params.flatMap nameLeaves
  | .endUnit => []
  | .dim arrays => arrays.flatMap ArrayBounds.leaves
  | .common block names => nameLeaves? block ++ names.flatMap nameLeaves
  | .equate name _ value => nameLeaves name ++ value.leaves
  | .assignment target value => target.leaves ++ value.leaves
  | .mat array value => nameLeaves array ++ value.leaves
  | .ifThen condition clause => condition.leaves ++ clause.leaves
  | .beginCase cases => CaseArm.leavesAll cases
  | .forNext counter start limit step guard body nextName =>
    nameLeaves counter ++ (start.leaves ++ (limit.leaves ++ (leaves? step ++
      (LoopGuard.leaves? guard ++ (Item.leavesAll body ++ nameLeaves? nextName)))))
  | .loop before guard after =>
    Item.leavesAll before ++ (LoopGuard.leaves? guard ++ Item.leavesAll after)
  | .jump _ target => target.leaves
  | .jumpOn selector _ targets => selector.leaves ++ targets.flatMap Target.leaves
  | .returnTo target => target.toList.flatMap Target.leaves
  | .print channel items => leaves? channel ++ items.flatMap fun i => i.expr.leaves
  | .crt items => items.flatMap fun i => i.expr.leaves
  | .input name length _ clause => nameLeaves name ++ (leaves? length ++ Clause.leaves? clause)
  | .inputAt column row name length _ clause =>
    column.leaves ++ (row.leaves ++ (nameLeaves name ++ (leaves? length ++ Clause.leaves? clause)))
  | .inputTrap keys target => keys.leaves ++ target.toList.flatMap Target.leaves
  | .data values => leavesAll values
  | .switch _ _ => []
  | .openFile dictionary file name onError clause =>
    leaves? dictionary ++ (file.leaves ++ (nameLeaves? name ++
      (Statement.leaves? onError ++ clause.leaves)))
  | .read _ name path onError locked clause =>
    nameLeaves name ++ (path.leaves ++ (Statement.leaves? onError ++
      (Statement.leaves? locked ++ Clause.leaves? clause)))
  | .write _ value path onError => value.leaves ++ (path.leaves ++ Statement.leaves? onError)
  | .delete path onError clause =>
    path.leaves ++ (Statement.leaves? onError ++ Clause.leaves? clause)
  | .receive _ name clause => nameLeaves name ++ Clause.leaves? clause
  | .writeTape value device => value.leaves ++ device.leaves
  | .select source list => leaves? source ++ nameLeaves? list
  | .lock lock locked clause =>
    lock.leaves ++ (Statement.leaves? locked ++ Clause.leaves? clause)
  | .clearFile file onError => file.leaves ++ Statement.leaves? onError
  | .matRead _ array path onError locked clause =>
    nameLeaves array ++ (path.leaves ++ (Statement.leaves? onError ++
      (Statement.leaves? locked ++ Clause.leaves? clause)))
  | .matWrite _ array path onError =>
    nameLeaves array ++ (path.leaves ++ Statement.leaves? onError)
  | .locate value container setting clause =>
    value.leaves ++ (container.leaves ++ (nameLeaves? setting ++ Clause.leaves? clause))
  | .execute command capturing returning =>
    command.leaves ++ (nameLeaves? capturing ++ nameLeaves? returning)
  | .call name indirect args =>
    (if indirect then systemLeaves name else nameLeaves name) ++ leavesAll args
  | .operand _ value => value.leaves
  | .optional _ value => leaves? value
  | .bare _ => []
  | .expression expr => expr.leaves

end

attribute [simp] Item.leaves Item.leavesAll Item.leavesAll? Statement.leaves Statement.leaves?
  Clause.leaves Clause.leaves? CaseArm.leaves CaseArm.leavesAll Form.leaves

@[simp] theorem Item.leavesAll_append (is js : List Item) :
    Item.leavesAll (is ++ js) = Item.leavesAll is ++ Item.leavesAll js := by
  induction is with
  | nil => simp [Item.leavesAll]
  | cons i is ih => rw [List.cons_append, Item.leavesAll, Item.leavesAll, ih, List.append_assoc]

/-- Comments keep no leaf. -/
@[simp] theorem Item.leavesAll_comments (cs : List Comment) :
    Item.leavesAll (cs.map Item.comment) = [] := by
  induction cs with
  | nil => simp [Item.leavesAll]
  | cons c cs ih => simp [Item.leavesAll, Item.leaves, ih]

@[simp] theorem CaseArm.leavesAll_append (cs ds : List CaseArm) :
    CaseArm.leavesAll (cs ++ ds) = CaseArm.leavesAll cs ++ CaseArm.leavesAll ds := by
  induction cs with
  | nil => simp [CaseArm.leavesAll]
  | cons c cs ih => rw [List.cons_append, CaseArm.leavesAll, CaseArm.leavesAll, ih, List.append_assoc]

end PickSyntax
