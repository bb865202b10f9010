import PickSyntax.Fault
import PickSyntax.Tree.Statement

/-!
# Trees with other offsets

`relocate f` replaces every byte offset in a tree by its image under `f` and leaves the rest
of the tree alone. Moving a source by some bytes relocates its tree by an addition; two trees
are equal up to their ranges when they become the same under a constant.
-/
namespace PickSyntax

def Span.relocate (f : Nat → Nat) (s : Span) : Span := ⟨f s.start, f s.stop⟩

@[simp] theorem Span.relocate_start (f : Nat → Nat) (s : Span) :
    (s.relocate f).start = f s.start := rfl

@[simp] theorem Span.relocate_stop (f : Nat → Nat) (s : Span) :
    (s.relocate f).stop = f s.stop := rfl

@[simp] theorem Span.relocate_id (s : Span) : s.relocate id = s := rfl

def Comment.relocate (f : Nat → Nat) (c : Comment) : Comment := { c with span := c.span.relocate f }

def Fault.relocate (f : Nat → Nat) (e : Fault) : Fault := { e with span := e.span.relocate f }

def Label.relocate (f : Nat → Nat) (l : Label) : Label := { l with span := l.span.relocate f }

def Target.relocate (f : Nat → Nat) (t : Target) : Target := { t with span := t.span.relocate f }

namespace Expr

mutual

def relocate (f : Nat → Nat) : Expr → Expr
  | .binary left op right s => .binary (left.relocate f) op (right.relocate f) (s.relocate f)
  | .unary op operand s => .unary op (operand.relocate f) (s.relocate f)
  | .name text s => .name text (s.relocate f)
  | .number text s => .number text (s.relocate f)
  | .string value q s => .string value q (s.relocate f)
  | .call text args s => .call text (relocateAll f args) (s.relocate f)
  | .dynamic text attr value subValue s =>
    .dynamic text (attr.relocate f) (relocate? f value) (relocate? f subValue) (s.relocate f)
  | .substring text start length s =>
    .substring text (start.relocate f) (relocate? f length) (s.relocate f)
  | .cursor column row s => .cursor (column.relocate f) (relocate? f row) (s.relocate f)
  | .system text s => .system text (s.relocate f)
  | .paren inner s => .paren (inner.relocate f) (s.relocate f)

def relocateAll (f : Nat → Nat) : List Expr → List Expr
  | [] => []
  | e :: es => e.relocate f :: relocateAll f es

def relocate? (f : Nat → Nat) : Option Expr → Option Expr
  | none => none
  | some e => some (e.relocate f)

end

attribute [simp] relocate relocateAll relocate?

@[simp] theorem relocate_span (f : Nat → Nat) (e : Expr) :
    (e.relocate f).span = e.span.relocate f := by
  cases e <;> simp [span]

theorem relocateAll_eq_map (f : Nat → Nat) (es : List Expr) :
    relocateAll f es = es.map (relocate f) := by
  induction es with
  | nil => rfl
  | cons e es ih => rw [relocateAll, ih, List.map_cons]

theorem relocate?_eq_map (f : Nat → Nat) (e : Option Expr) :
    relocate? f e = e.map (relocate f) := by
  cases e <;> rfl

mutual

theorem relocate_id : ∀ e : Expr, e.relocate id = e
  | .binary left _ right _ => by simp [relocate_id left, relocate_id right]
  | .unary _ operand _ => by simp [relocate_id operand]
  | .name .. | .number .. | .string .. | .system .. => by simp
  | .call _ args _ => by simp [relocateAll_id args]
  | .dynamic _ attr value subValue _ => by
    simp [relocate_id attr, relocate?_id value, relocate?_id subValue]
  | .substring _ start length _ => by simp [relocate_id start, relocate?_id length]
  | .cursor column row _ => by simp [relocate_id column, relocate?_id row]
  | .paren inner _ => by simp [relocate_id inner]

theorem relocateAll_id : ∀ es : List Expr, relocateAll id es = es
  | [] => rfl
  | e :: es => by simp [relocate_id e, relocateAll_id es]

theorem relocate?_id : ∀ e : Option Expr, relocate? id e = e
  | none => rfl
  | some e => by simp [relocate_id e]

end

end Expr

open PickSyntax.Expr (relocateAll relocate?)

def ArrayBounds.relocate (f : Nat → Nat) : ArrayBounds → ArrayBounds
  | ⟨name, rows, columns, s⟩ => ⟨name, rows.relocate f, relocate? f columns, s.relocate f⟩

def RecordPath.relocate (f : Nat → Nat) : RecordPath → RecordPath
  | ⟨file, key, attr⟩ => ⟨relocate? f file, key.relocate f, relocate? f attr⟩

def LoopGuard.relocate (f : Nat → Nat) : LoopGuard → LoopGuard
  | ⟨sense, condition⟩ => ⟨sense, condition.relocate f⟩

def PrintEntry.relocate (f : Nat → Nat) : PrintEntry → PrintEntry
  | ⟨expr, separator⟩ => ⟨expr.relocate f, separator⟩

mutual

def Item.relocate (f : Nat → Nat) : Item → Item
  | .statement s => .statement (s.relocate f)
  | .label l => .label (l.relocate f)
  | .comment c => .comment (c.relocate f)

def Item.relocateAll (f : Nat → Nat) : List Item → List Item
  | [] => []
  | i :: is => i.relocate f :: Item.relocateAll f is

def Item.relocateAll? (f : Nat → Nat) : Option (List Item) → Option (List Item)
  | none => none
  | some body => some (Item.relocateAll f body)

def Statement.relocate (f : Nat → Nat) : Statement → Statement
  | ⟨form, s⟩ => ⟨form.relocate f, s.relocate f⟩

def Statement.relocate? (f : Nat → Nat) : Option Statement → Option Statement
  | none => none
  | some s => some (s.relocate f)

def Clause.relocate (f : Nat → Nat) : Clause → Clause
  | ⟨thenBody, elseBody, layout⟩ =>
    ⟨Item.relocateAll? f thenBody, Item.relocateAll? f elseBody, layout⟩

def Clause.relocate? (f : Nat → Nat) : Option Clause → Option Clause
  | none => none
  | some c => some (c.relocate f)

def CaseArm.relocate (f : Nat → Nat) : CaseArm → CaseArm
  | ⟨condition, body, s⟩ => ⟨condition.relocate f, Item.relocateAll f body, s.relocate f⟩

def CaseArm.relocateAll (f : Nat → Nat) : List CaseArm → List CaseArm
  | [] => []
  | c :: cs => c.relocate f :: CaseArm.relocateAll f cs

def Form.relocate (f : Nat → Nat) : Form → Form
  | .subroutine name params => .subroutine name params
  | .endUnit => .endUnit
  | .dim arrays => .dim (arrays.map (·.relocate f))
  | .common block names => .common block names
  | .equate name sense value => .equate name sense (value.relocate f)
  | .assignment target value => .assignment (target.relocate f) (value.relocate f)
  | .mat array value => .mat array (value.relocate f)
  | .ifThen condition clause => .ifThen (condition.relocate f) (clause.relocate f)
  | .beginCase cases => .beginCase (CaseArm.relocateAll f cases)
  | .forNext counter start limit step guard body nextName =>
    .forNext counter (start.relocate f) (limit.relocate f) (Expr.relocate? f step)
      (guard.map (·.relocate f)) (Item.relocateAll f body) nextName
  | .loop before guard after =>
    .loop (Item.relocateAll f before) (guard.map (·.relocate f)) (Item.relocateAll f after)
  | .jump kind target => .jump kind (target.relocate f)
  | .jumpOn selector kind targets =>
    .jumpOn (selector.relocate f) kind (targets.map (·.relocate f))
  | .returnTo target => .returnTo (target.map (·.relocate f))
  | .print channel items => .print (Expr.relocate? f channel) (items.map (·.relocate f))
  | .crt items => .crt (items.map (·.relocate f))
  | .input name length stay clause =>
    .input name (Expr.relocate? f length) stay (Clause.relocate? f clause)
  | .inputAt column row name length stay clause =>
    .inputAt (column.relocate f) (row.relocate f) name (Expr.relocate? f length) stay
      (Clause.relocate? f clause)
  | .inputTrap keys target => .inputTrap (keys.relocate f) (target.map (·.relocate f))
  | .data values => .data (Expr.relocateAll f values)
  | .switch device state => .switch device state
  | .openFile dictionary file name onError clause =>
    .openFile (Expr.relocate? f dictionary) (file.relocate f) name
      (Statement.relocate? f onError) (clause.relocate f)
  | .read mode name path onError locked clause =>
    .read mode name (path.relocate f) (Statement.relocate? f onError)
      (Statement.relocate? f locked) (Clause.relocate? f clause)
  | .write mode value path onError =>
    .write mode (value.relocate f) (path.relocate f) (Statement.relocate? f onError)
  | .delete path onError clause =>
    .delete (path.relocate f) (Statement.relocate? f onError) (Clause.relocate? f clause)
  | .receive feed name clause => .receive feed name (Clause.relocate? f clause)
  | .writeTape value device => .writeTape (value.relocate f) (device.relocate f)
  | .select source list => .select (Expr.relocate? f source) list
  | .lock lock locked clause =>
    .lock (lock.relocate f) (Statement.relocate? f locked) (Clause.relocate? f clause)
  | .clearFile file onError => .clearFile (file.relocate f) (Statement.relocate? f onError)
  | .matRead locking array path onError locked clause =>
    .matRead locking array (path.relocate f) (Statement.relocate? f onError)
      (Statement.relocate? f locked) (Clause.relocate? f clause)
  | .matWrite locking array path onError =>
    .matWrite locking array (path.relocate f) (Statement.relocate? f onError)
  | .locate value container setting clause =>
    .locate (value.relocate f) (container.relocate f) setting (Clause.relocate? f clause)
  | .execute command capturing returning => .execute (command.relocate f) capturing returning
  | .call name indirect args => .call name indirect (Expr.relocateAll f args)
  | .operand verb value => .operand verb (value.relocate f)
  | .optional verb value => .optional verb (Expr.relocate? f value)
  | .bare verb => .bare verb
  | .expression expr => .expression (expr.relocate f)

end

attribute [simp] Item.relocate Item.relocateAll Item.relocateAll? Statement.relocate
  Statement.relocate? Clause.relocate Clause.relocate? CaseArm.relocate CaseArm.relocateAll
  Form.relocate

theorem Item.relocateAll_eq_map (f : Nat → Nat) (is : List Item) :
    Item.relocateAll f is = is.map (Item.relocate f) := by
  induction is with
  | nil => simp
  | cons i is ih => rw [Item.relocateAll, ih, List.map_cons]

theorem Item.relocateAll?_eq_map (f : Nat → Nat) (body : Option (List Item)) :
    Item.relocateAll? f body = body.map (List.map (Item.relocate f)) := by
  cases body <;> simp [Item.relocateAll_eq_map]

theorem Statement.relocate?_eq_map (f : Nat → Nat) (s : Option Statement) :
    Statement.relocate? f s = s.map (Statement.relocate f) := by
  cases s <;> simp

theorem Clause.relocate?_eq_map (f : Nat → Nat) (c : Option Clause) :
    Clause.relocate? f c = c.map (Clause.relocate f) := by
  cases c <;> simp

theorem CaseArm.relocateAll_eq_map (f : Nat → Nat) (cs : List CaseArm) :
    CaseArm.relocateAll f cs = cs.map (CaseArm.relocate f) := by
  induction cs with
  | nil => simp
  | cons c cs ih => rw [CaseArm.relocateAll, ih, List.map_cons]

section Identity

@[simp] theorem Comment.relocate_id (c : Comment) : c.relocate id = c := rfl

@[simp] theorem Label.relocate_id (l : Label) : l.relocate id = l := rfl

@[simp] theorem Target.relocate_id (t : Target) : t.relocate id = t := rfl

attribute [local simp] Expr.relocate_id Expr.relocateAll_id Expr.relocate?_id
  ArrayBounds.relocate RecordPath.relocate LoopGuard.relocate PrintEntry.relocate

mutual

theorem Item.relocate_id : ∀ i : Item, i.relocate id = i
  | .statement s => by simp [Statement.relocate_id s]
  | .label _ => by simp
  | .comment _ => by simp

theorem Item.relocateAll_id : ∀ is : List Item, Item.relocateAll id is = is
  | [] => by simp
  | i :: is => by simp [Item.relocate_id i, Item.relocateAll_id is]

theorem Item.relocateAll?_id : ∀ body : Option (List Item), Item.relocateAll? id body = body
  | none => by simp
  | some body => by simp [Item.relocateAll_id body]

theorem Statement.relocate_id : ∀ s : Statement, s.relocate id = s
  | ⟨form, _⟩ => by simp [Form.relocate_id form]

theorem Statement.relocate?_id : ∀ s : Option Statement, Statement.relocate? id s = s
  | none => by simp
  | some s => by simp [Statement.relocate_id s]

theorem Clause.relocate_id : ∀ c : Clause, c.relocate id = c
  | ⟨thenBody, elseBody, _⟩ => by
    simp [Item.relocateAll?_id thenBody, Item.relocateAll?_id elseBody]

theorem Clause.relocate?_id : ∀ c : Option Clause, Clause.relocate? id c = c
  | none => by simp
  | some c => by simp [Clause.relocate_id c]

theorem CaseArm.relocate_id : ∀ c : CaseArm, c.relocate id = c
  | ⟨_, body, _⟩ => by simp [Item.relocateAll_id body]

theorem CaseArm.relocateAll_id : ∀ cs : List CaseArm, CaseArm.relocateAll id cs = cs
  | [] => by simp
  | c :: cs => by simp [CaseArm.relocate_id c, CaseArm.relocateAll_id cs]

theorem Form.relocate_id : ∀ form : Form, form.relocate id = form
  | .ifThen _ clause => by simp [Clause.relocate_id clause]
  | .beginCase cases => by simp [CaseArm.relocateAll_id cases]
  | .forNext _ _ _ _ _ body _ => by simp [Item.relocateAll_id body]
  | .loop before _ after => by simp [Item.relocateAll_id before, Item.relocateAll_id after]
  | .input _ _ _ clause => by simp [Clause.relocate?_id clause]
  | .inputAt _ _ _ _ _ clause => by simp [Clause.relocate?_id clause]
  | .openFile _ _ _ onError clause => by
    simp [Statement.relocate?_id onError, Clause.relocate_id clause]
  | .read _ _ _ onError locked clause => by
    simp [Statement.relocate?_id onError, Statement.relocate?_id locked, Clause.relocate?_id clause]
  | .write _ _ _ onError => by simp [Statement.relocate?_id onError]
  | .delete _ onError clause => by
    simp [Statement.relocate?_id onError, Clause.relocate?_id clause]
  | .receive _ _ clause => by simp [Clause.relocate?_id clause]
  | .lock _ locked clause => by simp [Statement.relocate?_id locked, Clause.relocate?_id clause]
  | .clearFile _ onError => by simp [Statement.relocate?_id onError]
  | .matRead _ _ _ onError locked clause => by
    simp [Statement.relocate?_id onError, Statement.relocate?_id locked, Clause.relocate?_id clause]
  | .matWrite _ _ _ onError => by simp [Statement.relocate?_id onError]
  | .locate _ _ _ clause => by simp [Clause.relocate?_id clause]
  | .subroutine .. | .endUnit | .dim _ | .common .. | .equate .. | .assignment .. | .mat ..
  | .jump .. | .jumpOn .. | .returnTo _ | .print .. | .crt _ | .inputTrap .. | .data _
  | .switch .. | .writeTape .. | .select .. | .execute .. | .call .. | .operand .. | .optional ..
  | .bare _ | .expression _ => by simp

end

end Identity

-- From here on every list and option is relocated by a map.
attribute [simp] Expr.relocateAll_eq_map Expr.relocate?_eq_map Item.relocateAll_eq_map
  Item.relocateAll?_eq_map Statement.relocate?_eq_map Clause.relocate?_eq_map
  CaseArm.relocateAll_eq_map

/-- Data whose offsets can be replaced. -/
class Located (α : Type) where
  relocate : (Nat → Nat) → α → α

export Located (relocate)

instance : Located String := ⟨fun _ text => text⟩
instance : Located Bool := ⟨fun _ b => b⟩
instance : Located Span := ⟨Span.relocate⟩
instance : Located Comment := ⟨Comment.relocate⟩
instance : Located Fault := ⟨Fault.relocate⟩
instance : Located Label := ⟨Label.relocate⟩
instance : Located Target := ⟨Target.relocate⟩
instance : Located Expr := ⟨Expr.relocate⟩
instance : Located ArrayBounds := ⟨ArrayBounds.relocate⟩
instance : Located RecordPath := ⟨RecordPath.relocate⟩
instance : Located LoopGuard := ⟨LoopGuard.relocate⟩
instance : Located PrintEntry := ⟨PrintEntry.relocate⟩
instance : Located Item := ⟨Item.relocate⟩
instance : Located Statement := ⟨Statement.relocate⟩
instance : Located Clause := ⟨Clause.relocate⟩
instance : Located CaseArm := ⟨CaseArm.relocate⟩
instance : Located Form := ⟨Form.relocate⟩

instance {α : Type} [Located α] : Located (List α) := ⟨fun f => List.map (relocate f)⟩
instance {α : Type} [Located α] : Located (Option α) := ⟨fun f => Option.map (relocate f)⟩
instance {α β : Type} [Located α] [Located β] : Located (α × β) :=
  ⟨fun f v => (relocate f v.1, relocate f v.2)⟩

theorem relocate_id_items (is : List Item) : relocate id is = is :=
  List.map_id'' Item.relocate_id is

theorem relocate_id_comments (cs : List Comment) : relocate id cs = cs :=
  List.map_id'' Comment.relocate_id cs

theorem relocate_id_faults (fs : List Fault) : relocate id fs = fs :=
  List.map_id'' (fun _ => rfl) fs

end PickSyntax
