import PickSyntax.Tree.Outline

/-!
# Outlines of trees are plain

What makes a symbolic expression readable is a restriction on its words. Names of nodes and
labels are made of small letters and underlines, and an operator holds no double quote, so
that each of the marks of the notation stands for itself wherever it occurs. Every outline of
a tree is of that kind, whatever the tree holds.
-/
namespace PickSyntax
namespace Sexp

/-- The characters of names and labels. -/
def isNameChar (c : Char) : Bool := c.isLower || c == '_'

/-- Names and labels are never empty. -/
def isWord (text : String) : Bool := !text.toList.isEmpty && text.toList.all isNameChar

mutual

/-- Names and labels are words, and no quoted text holds a quote. -/
def plain : Sexp → Bool
  | .node name children => isWord name && plainAll children
  | .labelled label child => isWord label && child.plain
  | .quoted text => !text.toList.contains '"'

def plainAll : List Sexp → Bool
  | [] => true
  | x :: xs => x.plain && plainAll xs

end

theorem plainAll_eq (xs : List Sexp) : plainAll xs = xs.all plain := by
  induction xs with
  | nil => rfl
  | cons x xs ih => rw [plainAll, ih, List.all_cons]

@[simp] theorem plainAll_append (xs ys : List Sexp) :
    plainAll (xs ++ ys) = (plainAll xs && plainAll ys) := by
  simp only [plainAll_eq, List.all_append]

@[simp] theorem plainAll_map {α : Type} (xs : List α) (f : α → Sexp) :
    plainAll (xs.map f) = xs.all fun x => (f x).plain := by
  rw [plainAll_eq, List.all_map]
  rfl

theorem plain_node {name : String} {children : List Sexp} (hn : isWord name = true)
    (hc : plainAll children = true) : (node name children).plain = true := by
  rw [plain, hn, hc]
  rfl

end Sexp

open Sexp

theorem BinaryOp.quoted_plain (op : BinaryOp) : (quoted op.spelling).plain = true := by
  cases op <;> decide

theorem UnaryOp.quoted_plain (op : UnaryOp) : (quoted op.spelling).plain = true := by
  cases op <;> decide

theorem Expr.nodeName_isWord (e : Expr) : isWord e.nodeName = true := by
  cases e <;> simp only [nodeName] <;> decide

theorem Form.nodeName_isWord (form : Form) : isWord form.nodeName = true := by
  cases form with
  | jump kind _ => simp only [nodeName]; cases kind <;> decide
  | switch device _ => simp only [nodeName]; cases device <;> decide
  | receive feed _ _ => simp only [nodeName]; cases feed <;> decide
  | operand verb _ => simp only [nodeName]; cases verb <;> decide
  | optional verb _ => simp only [nodeName]; cases verb <;> decide
  | bare verb => simp only [nodeName]; cases verb <;> decide
  | _ => simp only [nodeName]; decide

theorem OperandVerb.role_isWord (verb : OperandVerb) : isWord verb.role = true := by
  cases verb <;> decide

theorem OptionalVerb.role_isWord (verb : OptionalVerb) : isWord verb.role = true := by
  cases verb <;> decide

theorem nameField_plain {label : String} (h : isWord label = true) :
    (nameField label).plain = true := by
  rw [nameField, plain, h]
  rfl

theorem nameField?_plain {label : String} (h : isWord label = true) (name : Option String) :
    plainAll (nameField? label name) = true := by
  cases name with
  | none => rfl
  | some _ => simp [nameField?, plainAll, nameField_plain h]

theorem nameFields_plain {label : String} (h : isWord label = true) (names : List String) :
    plainAll (names.map fun _ => nameField label) = true := by
  rw [plainAll_map, List.all_eq_true]
  exact fun _ _ => nameField_plain h

theorem operatorField_plain {spelling : String} (h : (quoted spelling).plain = true) :
    (operatorField spelling).plain = true := by
  rw [operatorField, plain, h]
  rfl

namespace Expr

mutual

theorem outline_plain : ∀ e : Expr, e.outline.plain = true
  | .binary left op right _ => by
    simp +decide [outline, plain, plainAll, operatorField_plain op.quoted_plain,
      outline_plain left, outline_plain right]
  | .unary op operand _ => by
    simp +decide [outline, plain, plainAll, operatorField_plain op.quoted_plain,
      outline_plain operand]
  | .name _ _ | .number _ _ | .string _ _ _ | .system _ _ => rfl
  | .call _ args _ => by
    simp +decide [outline, plain, plainAll, nameField_plain, outlines_plain args]
  | .dynamic _ attr value subValue _ => by
    simp +decide [outline, plain, plainAll, nameField_plain, outline_plain attr,
      field?_plain "value" value, field?_plain "sub_value" subValue]
  | .substring _ start length _ => by
    simp +decide [outline, plain, plainAll, nameField_plain, outline_plain start,
      field?_plain "length" length]
  | .cursor column row _ => by
    simp +decide [outline, plain, plainAll, outline_plain column, field?_plain "row" row]
  | .paren inner _ => by simp +decide [outline, plain, plainAll, outline_plain inner]

theorem outlines_plain : ∀ es : List Expr, plainAll (outlines es) = true
  | [] => rfl
  | e :: es => by simp [outlines, plainAll, outline_plain e, outlines_plain es]

theorem field?_plain (label : String) :
    ∀ (e : Option Expr) (_ : isWord label = true), plainAll (field? label e) = true
  | none, _ => rfl
  | some e, h => by simp [field?, plainAll, plain, outline_plain e, h]

end

theorem field_plain {label : String} (h : isWord label = true) (e : Expr) :
    (field label e).plain = true := by
  rw [field, plain, h, outline_plain e]
  rfl

end Expr

theorem Target.outline_plain (t : Target) : t.outline.plain = true := by
  unfold Target.outline
  split <;> decide

theorem Target.outline?_plain (t : Option Target) :
    plainAll (t.map outline).toList = true := by
  cases t with
  | none => rfl
  | some t => simp [plainAll, t.outline_plain]

theorem ArrayBounds.outline_plain (d : ArrayBounds) : d.outline.plain = true := by
  simp +decide [outline, plain, plainAll, nameField_plain, Expr.field_plain,
    Expr.field?_plain "columns" d.columns]

theorem RecordPath.outline_plain (path : RecordPath) : plainAll path.outline = true := by
  simp +decide [outline, plainAll, Expr.field_plain, Expr.field?_plain "file" path.file,
    Expr.field?_plain "attribute" path.attr]

theorem LoopGuard.outline?_plain (guard : Option LoopGuard) :
    plainAll (outline? guard) = true := by
  cases guard <;> simp +decide [outline?, plainAll, Expr.field_plain]

theorem PrintEntry.outline_plain (items : List PrintEntry) : plainAll (outline items) = true := by
  cases items <;> simp +decide [outline, plain, plainAll, Expr.outline_plain]

attribute [local simp] plainAll plain_node nameField_plain nameField?_plain Expr.field_plain
  Expr.field?_plain Expr.outline_plain Expr.outlines_plain Target.outline_plain
  Target.outline?_plain ArrayBounds.outline_plain RecordPath.outline_plain LoopGuard.outline?_plain
  PrintEntry.outline_plain OperandVerb.role_isWord OptionalVerb.role_isWord

mutual

theorem Item.outline_plain : ∀ i : Item, i.outline.plain = true
  | .statement s => Statement.outline_plain s
  | .label _ => by simp +decide [Item.outline]
  | .comment _ => by simp +decide [Item.outline]

theorem Item.outlines_plain : ∀ is : List Item, plainAll (Item.outlines is) = true
  | [] => rfl
  | i :: is => by simp [Item.outlines, Item.outline_plain i, Item.outlines_plain is]

theorem Item.outlineBody?_plain {node : String} (h : isWord node = true) :
    ∀ body : Option (List Item), plainAll (Item.outlineBody? node body) = true
  | none => rfl
  | some body => by simp [Item.outlineBody?, h, Item.outlines_plain body]

theorem Statement.outline_plain : ∀ s : Statement, s.outline.plain = true
  | ⟨form, _⟩ => plain_node form.nodeName_isWord (Form.outline_plain form)

theorem Statement.outlineClause?_plain {node : String} (h : isWord node = true) :
    ∀ s : Option Statement, plainAll (Statement.outlineClause? node s) = true
  | none => rfl
  | some s => by simp [Statement.outlineClause?, h, Statement.outline_plain s]

theorem Clause.outline_plain : ∀ c : Clause, plainAll c.outline = true
  | ⟨thenBody, elseBody, _⟩ => by
    simp +decide [Clause.outline, Item.outlineBody?_plain _ thenBody,
      Item.outlineBody?_plain _ elseBody]

theorem Clause.outline?_plain : ∀ c : Option Clause, plainAll (Clause.outline? c) = true
  | none => rfl
  | some c => Clause.outline_plain c

theorem CaseArm.outlines_plain : ∀ cs : List CaseArm, plainAll (CaseArm.outlines cs) = true
  | [] => rfl
  | ⟨_, body, _⟩ :: cs => by
    simp +decide [CaseArm.outlines, CaseArm.outline, Item.outlines_plain body,
      CaseArm.outlines_plain cs]

theorem Form.outline_plain : ∀ form : Form, plainAll form.outline = true
  | .ifThen _ clause => by simp +decide [Form.outline, Clause.outline_plain clause]
  | .beginCase cases => CaseArm.outlines_plain cases
  | .forNext _ _ _ _ _ body _ => by simp +decide [Form.outline, Item.outlines_plain body]
  | .loop before _ after => by
    have hbefore := Item.outlines_plain before
    have hafter := Item.outlines_plain after
    simp only [Form.outline]
    split <;> split <;> simp +decide [hbefore, hafter]
  | .input _ _ _ clause => by simp +decide [Form.outline, Clause.outline?_plain clause]
  | .inputAt _ _ _ _ _ clause => by simp +decide [Form.outline, Clause.outline?_plain clause]
  | .openFile _ _ _ onError clause => by
    simp +decide [Form.outline, Statement.outlineClause?_plain _ onError,
      Clause.outline_plain clause]
  | .read _ _ _ onError locked clause => by
    simp +decide [Form.outline, Statement.outlineClause?_plain _ onError,
      Statement.outlineClause?_plain _ locked, Clause.outline?_plain clause]
  | .write _ _ _ onError => by
    simp +decide [Form.outline, Statement.outlineClause?_plain _ onError]
  | .delete _ onError clause => by
    simp +decide [Form.outline, Statement.outlineClause?_plain _ onError,
      Clause.outline?_plain clause]
  | .receive _ _ clause => by simp +decide [Form.outline, Clause.outline?_plain clause]
  | .lock _ locked clause => by
    simp +decide [Form.outline, Statement.outlineClause?_plain _ locked,
      Clause.outline?_plain clause]
  | .clearFile _ onError => by
    simp +decide [Form.outline, Statement.outlineClause?_plain _ onError]
  | .matRead _ _ _ onError locked clause => by
    simp +decide [Form.outline, Statement.outlineClause?_plain _ onError,
      Statement.outlineClause?_plain _ locked, Clause.outline?_plain clause]
  | .matWrite _ _ _ onError => by
    simp +decide [Form.outline, Statement.outlineClause?_plain _ onError]
  | .locate _ _ _ clause => by simp +decide [Form.outline, Clause.outline?_plain clause]
  | .call _ indirect _ => by cases indirect <;> simp +decide [Form.outline, plain]
  | .subroutine .. => by
    rw [Form.outline, plainAll_append, nameField?_plain (by decide), nameFields_plain (by decide)]
    rfl
  | .common .. => by
    rw [Form.outline, plainAll_append, nameField?_plain (by decide), nameFields_plain (by decide)]
    rfl
  | .endUnit | .dim .. | .equate .. | .assignment .. | .mat .. | .jump .. | .jumpOn ..
  | .returnTo .. | .print .. | .crt .. | .inputTrap .. | .data .. | .switch .. | .writeTape ..
  | .select .. | .execute .. | .operand .. | .optional .. | .bare .. | .expression .. => by
    simp +decide [Form.outline]

end

theorem Program.outline_plain (p : Program) : p.outline.plain = true :=
  plain_node (by decide) (Item.outlines_plain p.items)

end PickSyntax
