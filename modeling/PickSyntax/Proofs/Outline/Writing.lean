import PickSyntax.Proofs.Outline.Plain
import PickSyntax.Tree.Writer

/-!
# What is written is the outline

The writer puts a blank before a node by looking at the last character, and the rendering of an
outline puts one before every child. The two agree because nothing that is written ends in a
blank or an opening parenthesis, labels apart, which bring the blank for the node that they
belong to.

`Emits` is about a step that writes one node, wherever it stands, and `Adds` about a step that
adds children to a node that has been opened. Both say what has been written and that a blank is
due after it.
-/
namespace PickSyntax

open Sexp

namespace Writing

/-- A node that is opened after this text has a blank put before it. -/
def Due : List Char → Prop
  | [] => False
  | c :: _ => c ≠ '(' ∧ c ≠ ' '

/-- The blank that is put before a node. -/
def gap : List Char → List Char
  | [] | '(' :: _ | ' ' :: _ => []
  | _ => [' ']

theorem gap_of_due {written : List Char} (h : Due written) : gap written = [' '] := by
  cases written with
  | nil => cases h
  | cons c cs => simp [gap, h.1, h.2]

theorem due_cons {c : Char} (h : isNameChar c = true) (written : List Char) :
    Due (c :: written) := by
  refine ⟨?_, ?_⟩ <;> rintro rfl <;> revert h <;> decide

/-- The step writes one node. -/
structure EmitsAt (w : Writing) (x : Sexp) (written : List Char) : Prop where
  text : (w.run written).2 = x.render.toList.reverse ++ (gap written ++ written)
  due : Due (w.run written).2

def Emits (w : Writing) (x : Sexp) : Prop := ∀ written, EmitsAt w x written

structure AddsAt (w : Writing) (xs : List Sexp) (written : List Char) : Prop where
  text : (w.run written).2 = (renderChildren xs).toList.reverse ++ written
  due : Due (w.run written).2

/-- The step adds children. -/
def Adds (w : Writing) (xs : List Sexp) : Prop := ∀ written, Due written → AddsAt w xs written

theorem run_put (text : String) (written : List Char) :
    (put text).run written = ((), text.toList.reverse ++ written) := rfl

theorem run_separate (written : List Char) :
    separate.run written = ((), gap written ++ written) := by
  unfold separate gap
  cases written with
  | nil => rfl
  | cons c cs =>
    change ((), _) = ((), _)
    split <;> simp_all

theorem run_then (v w : Writing) (written : List Char) :
    (v >>= fun _ => w).run written = w.run (v.run written).2 := rfl

theorem run_openNode (name : String) (written : List Char) :
    (openNode name).run written =
      ((), name.toList.reverse ++ ('(' :: (gap written ++ written))) := by
  rw [openNode, run_then, run_separate, run_then, run_put, run_put]
  rfl

/-- A blank is due behind a word. -/
theorem due_word {text : String} (h : isWord text = true) (written : List Char) :
    Due (text.toList.reverse ++ written) := by
  simp only [isWord, Bool.and_eq_true] at h
  obtain ⟨hne, hall⟩ := h
  obtain hnil | ⟨cs, c, hcs⟩ := List.eq_nil_or_concat text.toList
  · rw [hnil] at hne
    cases hne
  · rw [hcs] at hall ⊢
    rw [List.concat_eq_append, List.reverse_append]
    exact due_cons (List.all_eq_true.mp hall c (by simp)) _

@[simp] theorem renderChildren_append (xs ys : List Sexp) :
    renderChildren (xs ++ ys) = renderChildren xs ++ renderChildren ys := by
  induction xs with
  | nil => simp [renderChildren]
  | cons x xs ih => simp only [List.cons_append, renderChildren, ih, String.append_assoc]

section Children
variable {v w : Writing} {x : Sexp} {xs ys : List Sexp} {α : Type}

theorem Adds.nothing : Adds (pure ()) [] :=
  fun _ h => ⟨rfl, h⟩

theorem Adds.andThen (hv : Adds v xs) (hw : Adds w ys) : Adds (v >>= fun _ => w) (xs ++ ys) := by
  intro written h
  have h₁ := hv written h
  have h₂ := hw _ h₁.due
  refine ⟨?_, h₂.due⟩
  rw [run_then, h₂.text, h₁.text, renderChildren_append, String.toList_append,
    List.reverse_append, List.append_assoc]

/-- One child, and those after it. -/
theorem Adds.cons (hv : Adds v [x]) (hw : Adds w ys) : Adds (v >>= fun _ => w) (x :: ys) :=
  hv.andThen hw

theorem Adds.of_eq (h : Adds w xs) (he : xs = ys) : Adds w ys := he ▸ h

/-- A node that follows directly brings its own blank. -/
theorem Emits.adds (h : Emits w x) : Adds w [x] := by
  intro written hdue
  have hw := h written
  refine ⟨?_, hw.due⟩
  rw [hw.text, gap_of_due hdue]
  simp [renderChildren]

/-- A node behind a blank brings none. -/
theorem Emits.spaced (h : Emits w x) : Adds (spaced w) [x] := by
  intro written _
  have hw := h (' ' :: written)
  have hrun : ((Writing.spaced w).run written).2 = (w.run (' ' :: written)).2 := rfl
  refine ⟨?_, hrun ▸ hw.due⟩
  rw [hrun, hw.text]
  simp [renderChildren, gap]

theorem Emits.labelled (h : Emits w x) (text : String) :
    Adds (labelled text w) [.labelled text x] := by
  intro written _
  have hw := h (' ' :: ':' :: (text.toList.reverse ++ ' ' :: written))
  have hrun : ((Writing.labelled text w).run written).2 =
      (w.run (' ' :: ':' :: (text.toList.reverse ++ ' ' :: written))).2 := rfl
  refine ⟨?_, hrun ▸ hw.due⟩
  rw [hrun, hw.text]
  simp [renderChildren, render, gap]

theorem Adds.forM {f : α → Writing} {g : α → Sexp} (h : ∀ a, Adds (f a) [g a]) :
    ∀ as : List α, Adds (as.forM f) (as.map g)
  | [] => .nothing
  | a :: as => (h a).andThen (Adds.forM h as)

theorem Adds.unlessEmpty (h : Adds w xs) (as : List α) :
    Adds (unlessEmpty as w) (if as.isEmpty then [] else xs) := by
  unfold Writing.unlessEmpty
  split
  · exact .nothing
  · exact h

/-- A node is what its fields add between the name and the closing parenthesis. -/
theorem Emits.node {name : String} (hn : isWord name = true) (h : Adds w xs) :
    Emits (node name w) (.node name xs) := by
  intro written
  have hw := h _ (due_word hn ('(' :: (gap written ++ written)))
  have hrun : ((Writing.node name w).run written).2 =
      ')' :: (w.run (name.toList.reverse ++ ('(' :: (gap written ++ written)))).2 := by
    rw [Writing.node, run_then, run_openNode, run_then]
    rfl
  refine ⟨?_, ?_⟩
  · rw [hrun, hw.text]
    simp [render]
  · rw [hrun]
    exact ⟨by decide, by decide⟩

theorem emits_leaf {name : String} (hn : isWord name = true) :
    Emits (leaf name) (Sexp.leaf name) :=
  Emits.node hn .nothing

end Children

theorem adds_putName (text : String) : Adds (putName text) [nameField text] :=
  (emits_leaf (by decide)).labelled text

theorem adds_putName? (text : String) :
    ∀ name, Adds (putName? text name) (nameField? text name)
  | none => .nothing
  | some _ => adds_putName text

theorem adds_operator (spelling : String) : Adds (operator spelling) [operatorField spelling] := by
  intro written _
  have hrun : ((operator spelling).run written).2 =
      '"' :: (spelling.toList.reverse ++ (" operator: \"".toList.reverse ++ written)) := rfl
  refine ⟨?_, ?_⟩
  · rw [hrun]
    simp [renderChildren, render, operatorField]
  · rw [hrun]
    exact ⟨by decide, by decide⟩

end Writing

open Writing

namespace Expr

mutual

theorem emits : ∀ e : Expr, Emits e.write e.outline
  | .binary left op right _ =>
    .node (nodeName_isWord _) <| .cons (left.emits.labelled "left") <|
      .cons (adds_operator op.spelling) (right.emits.labelled "right")
  | .unary op operand _ =>
    .node (nodeName_isWord _) <|
      .cons (adds_operator op.spelling) (operand.emits.labelled "operand")
  | .name _ _ | .number _ _ | .string _ _ _ | .system _ _ => .node (nodeName_isWord _) .nothing
  | .call _ args _ => .node (nodeName_isWord _) <| .cons (adds_putName "name") (adds_all args)
  | .dynamic _ attr value subValue _ =>
    .node (nodeName_isWord _) <| .cons (adds_putName "name") <|
      .cons (attr.emits.labelled "attribute") <|
        (adds_field? "value" value).andThen (adds_field? "sub_value" subValue)
  | .substring _ start length _ =>
    .node (nodeName_isWord _) <| .cons (adds_putName "name") <|
      .cons (start.emits.labelled "start") (adds_field? "length" length)
  | .cursor column row _ =>
    .node (nodeName_isWord _) <| .cons (column.emits.labelled "column") (adds_field? "row" row)
  | .paren inner _ => .node (nodeName_isWord _) inner.emits.spaced

theorem adds_all : ∀ es : List Expr, Adds (writeAll es) (outlines es)
  | [] => .nothing
  | e :: es => .cons e.emits.spaced (adds_all es)

theorem adds_field? (text : String) : ∀ e : Option Expr, Adds (writeField? text e) (field? text e)
  | none => .nothing
  | some e => e.emits.labelled text

end

theorem adds_field (text : String) (e : Expr) : Adds (writeField text e) [field text e] :=
  e.emits.labelled text

end Expr

open PickSyntax.Expr (adds_field adds_field? adds_all)

theorem Target.emits (t : Target) : Emits t.write t.outline := by
  unfold Target.write Target.outline
  split
  · exact emits_leaf (by decide)
  · exact emits_leaf (by decide)

theorem Target.adds? : ∀ t : Option Target, Adds (write? t) (t.map outline).toList
  | none => .nothing
  | some t => t.emits.adds

theorem ArrayBounds.emits (d : ArrayBounds) : Emits d.write d.outline :=
  .node (by decide) <| .cons (adds_putName "name") <|
    .cons (adds_field "rows" d.rows) (adds_field? "columns" d.columns)

theorem RecordPath.adds (path : RecordPath) : Adds path.write path.outline :=
  (adds_field? "file" path.file).andThen <|
    .cons (adds_field "key" path.key) (adds_field? "attribute" path.attr)

theorem LoopGuard.adds? : ∀ guard : Option LoopGuard, Adds (write? guard) (outline? guard)
  | none => .nothing
  | some guard => adds_field "condition" guard.condition

theorem PrintEntry.adds_all : ∀ items : List PrintEntry, Adds (writeAll items) (outline items)
  | [] => .nothing
  | item :: items =>
    (Emits.node (by decide) (.forM (fun i => i.expr.emits.spaced) (item :: items))).adds

mutual

theorem Item.emits : ∀ i : Item, Emits i.write i.outline
  | .statement s => Statement.emits s
  | .label _ => .node (by decide) fun _ _ => ⟨rfl, by decide, by decide⟩
  | .comment _ => emits_leaf (by decide)

theorem Item.adds_all : ∀ is : List Item, Adds (Item.writeAll is) (Item.outlines is)
  | [] => .nothing
  | i :: is => .cons (Item.emits i).adds (Item.adds_all is)

theorem Item.adds_body? {name : String} (h : isWord name = true) :
    ∀ body : Option (List Item), Adds (Item.writeBody? name body) (Item.outlineBody? name body)
  | none => .nothing
  | some body => (Emits.node h (Item.adds_all body)).adds

theorem Statement.emits : ∀ s : Statement, Emits s.write s.outline
  | ⟨form, _⟩ => .node form.nodeName_isWord (Form.adds form)

theorem Statement.adds_clause? {name : String} (h : isWord name = true) :
    ∀ s : Option Statement, Adds (Statement.writeClause? name s) (Statement.outlineClause? name s)
  | none => .nothing
  | some s => (Emits.node h (Statement.emits s).adds).adds

theorem Clause.adds : ∀ c : Clause, Adds c.write c.outline
  | ⟨thenBody, elseBody, _⟩ =>
    (Item.adds_body? (by decide) thenBody).andThen (Item.adds_body? (by decide) elseBody)

theorem Clause.adds? : ∀ c : Option Clause, Adds (Clause.write? c) (Clause.outline? c)
  | none => .nothing
  | some c => Clause.adds c

theorem CaseArm.adds_all : ∀ cs : List CaseArm, Adds (CaseArm.writeAll cs) (CaseArm.outlines cs)
  | [] => .nothing
  | ⟨condition, body, _⟩ :: cs =>
    .cons (Emits.node (by decide) (.cons (adds_field "condition" condition)
      (Item.adds_all body))).adds (CaseArm.adds_all cs)

theorem Form.adds : ∀ form : Form, Adds form.fields form.outline
  | .subroutine name params =>
    (adds_putName? "name" name).andThen (.forM (fun _ => adds_putName "parameter") params)
  | .endUnit | .switch _ _ | .bare _ => .nothing
  | .dim arrays => .forM (fun d => d.emits.adds) arrays
  | .common block names =>
    (adds_putName? "block" block).andThen (.forM (fun _ => adds_putName "variable") names)
  | .equate _ _ value => .cons (adds_putName "name") (adds_field "value" value)
  | .assignment target value => .cons (adds_field "target" target) (adds_field "value" value)
  | .mat _ value => .cons (adds_putName "array") (adds_field "value" value)
  | .ifThen condition clause => .cons (adds_field "condition" condition) (Clause.adds clause)
  | .beginCase cases => CaseArm.adds_all cases
  | .forNext _ start limit step guard body nextName =>
    (Adds.cons (adds_putName "variable") <| .cons (adds_field "start" start) <|
      .cons (adds_field "end" limit) <| (adds_field? "step" step).andThen <|
      (LoopGuard.adds? guard).andThen <| (Item.adds_all body).andThen <|
      adds_putName? "next" nextName).of_eq (by simp [Form.outline])
  | .loop before guard after =>
    ((Emits.node (by decide) (Item.adds_all before)).adds.unlessEmpty before |>.andThen <|
      (LoopGuard.adds? guard).andThen <|
      (Emits.node (by decide) (Item.adds_all after)).adds.unlessEmpty after).of_eq
      (by simp only [Form.outline, List.append_assoc])
  | .jump _ target => target.emits.adds
  | .jumpOn selector _ targets =>
    .cons (adds_field "selector" selector) (.forM (fun t => t.emits.adds) targets)
  | .returnTo target => Target.adds? target
  | .print channel items => (adds_field? "channel" channel).andThen (PrintEntry.adds_all items)
  | .crt items => PrintEntry.adds_all items
  | .input _ length _ clause =>
    .cons (adds_putName "variable") ((adds_field? "length" length).andThen (Clause.adds? clause))
  | .inputAt column row _ length _ clause =>
    .cons (adds_field "column" column) <| .cons (adds_field "row" row) <|
      .cons (adds_putName "variable") <|
      (adds_field? "length" length).andThen (Clause.adds? clause)
  | .inputTrap keys target => .cons (adds_field "keys" keys) (Target.adds? target)
  | .data values => adds_all values
  | .openFile dictionary file name onError clause =>
    ((adds_field? "dictionary" dictionary).andThen <| .cons (adds_field "file_name" file) <|
      (adds_putName? "variable" name).andThen <|
      (Statement.adds_clause? (by decide) onError).andThen (Clause.adds clause)).of_eq
      (by simp [Form.outline])
  | .read _ _ path onError locked clause =>
    (Adds.cons (adds_putName "variable") <| path.adds.andThen <|
      (Statement.adds_clause? (by decide) onError).andThen <|
      (Statement.adds_clause? (by decide) locked).andThen (Clause.adds? clause)).of_eq
      (by simp [Form.outline])
  | .write _ value path onError =>
    .cons (adds_field "value" value) <|
      path.adds.andThen (Statement.adds_clause? (by decide) onError)
  | .delete path onError clause =>
    (path.adds.andThen <|
      (Statement.adds_clause? (by decide) onError).andThen (Clause.adds? clause)).of_eq
      (by simp [Form.outline])
  | .receive _ _ clause => .cons (adds_putName "variable") (Clause.adds? clause)
  | .writeTape value device => .cons (adds_field "value" value) (adds_field "unit" device)
  | .select source list => (adds_field? "source" source).andThen (adds_putName? "list" list)
  | .lock lock locked clause =>
    .cons (adds_field "lock" lock) <|
      (Statement.adds_clause? (by decide) locked).andThen (Clause.adds? clause)
  | .clearFile file onError =>
    .cons (adds_field "file" file) (Statement.adds_clause? (by decide) onError)
  | .matRead _ _ path onError locked clause =>
    (Adds.cons (adds_putName "array") <| path.adds.andThen <|
      (Statement.adds_clause? (by decide) onError).andThen <|
      (Statement.adds_clause? (by decide) locked).andThen (Clause.adds? clause)).of_eq
      (by simp [Form.outline])
  | .matWrite _ _ path onError =>
    .cons (adds_putName "array") <|
      path.adds.andThen (Statement.adds_clause? (by decide) onError)
  | .locate value container setting clause =>
    .cons (adds_field "value" value) <| .cons (adds_field "dynamic_array" container) <|
      (adds_putName? "setting" setting).andThen (Clause.adds? clause)
  | .execute command capturing returning =>
    .cons (adds_field "command" command) <|
      (adds_putName? "capturing" capturing).andThen (adds_putName? "returning" returning)
  | .call _ indirect args => by
    have hname : isWord (if indirect then "at_variable" else "identifier") = true := by
      cases indirect <;> decide
    exact .cons ((emits_leaf hname).labelled "name") (adds_all args)
  | .operand verb value => adds_field verb.role value
  | .optional verb value => adds_field? verb.role value
  | .expression expr => expr.emits.spaced

end

/-- The line that is written for a program is the rendering of its outline. -/
theorem Program.toSexp_eq_render (p : Program) : p.toSexp = p.outline.render := by
  have h : Emits p.write p.outline := .node (by decide) (Item.adds_all p.items)
  rw [toSexp, text, (h []).text]
  simp [gap]

end PickSyntax
