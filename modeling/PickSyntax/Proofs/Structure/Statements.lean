import PickSyntax.Tree.Statement

/-!
# The statements of a tree

All statements of a tree in one list, each in front of those nested in it. A form holds other
statements either in the bodies that its own terminator closes, or in what is *attached* to
it: the statements after `ON ERROR` and `LOCKED`, and the `THEN` and `ELSE` branches.
-/
namespace PickSyntax

mutual

def Item.statements : Item → List Statement
  | .statement s => s.all
  | .label _ | .comment _ => []

/-- The statements of a list of items, at any depth. -/
def Item.statementsAll : List Item → List Statement
  | [] => []
  | i :: is => i.statements ++ Item.statementsAll is

def Item.statementsAll? : Option (List Item) → List Statement
  | none => []
  | some body => Item.statementsAll body

/-- A statement and those nested in it. -/
def Statement.all : Statement → List Statement
  | ⟨form, span⟩ => ⟨form, span⟩ :: form.nested

def Statement.all? : Option Statement → List Statement
  | none => []
  | some s => s.all

def Clause.nested : Clause → List Statement
  | ⟨thenBody, elseBody, _⟩ => Item.statementsAll? thenBody ++ Item.statementsAll? elseBody

def Clause.nested? : Option Clause → List Statement
  | none => []
  | some c => c.nested

def CaseArm.nested : CaseArm → List Statement
  | ⟨_, body, _⟩ => Item.statementsAll body

def CaseArm.nestedAll : List CaseArm → List Statement
  | [] => []
  | c :: cs => c.nested ++ CaseArm.nestedAll cs

/-- The statements inside a form. -/
def Form.nested : Form → List Statement
  | .ifThen _ clause => clause.nested
  | .beginCase cases => CaseArm.nestedAll cases
  | .forNext _ _ _ _ _ body _ => Item.statementsAll body
  | .loop before _ after => Item.statementsAll before ++ Item.statementsAll after
  | .input _ _ _ clause | .inputAt _ _ _ _ _ clause | .receive _ _ clause
  | .locate _ _ _ clause => Clause.nested? clause
  | .openFile _ _ _ onError clause => Statement.all? onError ++ clause.nested
  | .read _ _ _ onError locked clause | .matRead _ _ _ onError locked clause =>
    Statement.all? onError ++ (Statement.all? locked ++ Clause.nested? clause)
  | .write _ _ _ onError | .clearFile _ onError | .matWrite _ _ _ onError =>
    Statement.all? onError
  | .delete _ onError clause => Statement.all? onError ++ Clause.nested? clause
  | .lock _ locked clause => Statement.all? locked ++ Clause.nested? clause
  | _ => []

end

/-- The statements inside a statement. -/
def Statement.nested (s : Statement) : List Statement := s.form.nested

/-- The statements of a program, at any depth. -/
def Program.allStatements (p : Program) : List Statement := Item.statementsAll p.items

theorem Statement.all_eq (s : Statement) : s.all = s :: s.nested := by
  cases s
  rw [Statement.all]
  rfl

namespace Item

@[simp] theorem statementsAll_nil : statementsAll [] = [] := rfl

@[simp] theorem statementsAll_append (is js : List Item) :
    statementsAll (is ++ js) = statementsAll is ++ statementsAll js := by
  induction is with
  | nil => rfl
  | cons i is ih => rw [List.cons_append, statementsAll, ih, statementsAll, List.append_assoc]

@[simp] theorem statementsAll_statement (s : Statement) (is : List Item) :
    statementsAll (.statement s :: is) = s.all ++ statementsAll is := by
  rw [statementsAll, statements]

@[simp] theorem statementsAll_label (l : Label) : statementsAll [.label l] = [] := rfl

@[simp] theorem statementsAll_comments (cs : List Comment) :
    statementsAll (cs.map Item.comment) = [] := by
  induction cs with
  | nil => rfl
  | cons c cs ih => rw [List.map_cons, statementsAll, ih, statements, List.append_nil]

end Item

@[simp] theorem CaseArm.nestedAll_concat (cs : List CaseArm) (c : CaseArm) :
    nestedAll (cs ++ [c]) = nestedAll cs ++ Item.statementsAll c.body := by
  induction cs with
  | nil =>
    cases c
    simp [nestedAll, nested]
  | cons d cs ih => rw [List.cons_append, nestedAll, ih, nestedAll, List.append_assoc]

/-- What a statement that is no block holds of other statements. -/
structure Attachments where
  onError : Option Statement
  locked : Option Statement
  clause : Option Clause

/-- Nothing is attached. -/
def Attachments.none : Attachments := ⟨.none, .none, .none⟩

def Attachments.nested (a : Attachments) : List Statement :=
  Statement.all? a.onError ++ (Statement.all? a.locked ++ Clause.nested? a.clause)

/-- What is attached to a form that is neither closed by a terminator of its own nor one
itself. -/
def Form.attachments? : Form → Option Attachments
  | .endUnit | .beginCase _ | .forNext .. | .loop .. => Option.none
  | .ifThen _ clause => some ⟨.none, .none, some clause⟩
  | .input _ _ _ clause | .inputAt _ _ _ _ _ clause | .receive _ _ clause
  | .locate _ _ _ clause => some ⟨.none, .none, clause⟩
  | .openFile _ _ _ onError clause => some ⟨onError, .none, some clause⟩
  | .read _ _ _ onError locked clause | .matRead _ _ _ onError locked clause =>
    some ⟨onError, locked, clause⟩
  | .write _ _ _ onError | .clearFile _ onError | .matWrite _ _ _ onError =>
    some ⟨onError, .none, .none⟩
  | .delete _ onError clause => some ⟨onError, .none, clause⟩
  | .lock _ locked clause => some ⟨.none, locked, clause⟩
  | _ => some .none

theorem Form.nested_of_attachments {f : Form} {a : Attachments} (h : f.attachments? = some a) :
    f.nested = a.nested := by
  cases f <;> cases h <;>
    simp [Form.nested, Attachments.nested, Attachments.none, Statement.all?, Clause.nested?]

/-- The `THEN` and `ELSE` branches of a form. -/
def Form.clause? (f : Form) : Option Clause := f.attachments?.bind Attachments.clause

theorem Form.clause?_of_attachments {f : Form} {a : Attachments} (h : f.attachments? = some a) :
    f.clause? = a.clause := by
  rw [Form.clause?, h]
  rfl

/-- The items of both branches. -/
def Clause.items (c : Clause) : List Item := c.thenBody.getD [] ++ c.elseBody.getD []

@[simp] theorem Clause.items_mk (thenBody elseBody : Option (List Item)) (layout : ClauseLayout) :
    Clause.items ⟨thenBody, elseBody, layout⟩ = thenBody.getD [] ++ elseBody.getD [] := rfl

theorem Clause.nested_eq (c : Clause) : c.nested = Item.statementsAll c.items := by
  obtain ⟨_ | is, _ | js, l⟩ := c <;> simp [Clause.nested, Item.statementsAll?]

@[simp] theorem Clause.nested?_some (c : Clause) :
    Clause.nested? (some c) = Item.statementsAll c.items := c.nested_eq

/-- The items of the bodies of a form. -/
def Form.items : Form → List Item
  | .beginCase cases => cases.flatMap CaseArm.body
  | .forNext _ _ _ _ _ body _ => body
  | .loop before _ after => before ++ after
  | f => (f.clause?.map Clause.items).getD []

theorem Form.items_of_attachments {f : Form} {a : Attachments} (h : f.attachments? = some a) :
    f.items = (a.clause.map Clause.items).getD [] := by
  rw [← clause?_of_attachments h]
  cases f <;> first | rfl | cases h

end PickSyntax
