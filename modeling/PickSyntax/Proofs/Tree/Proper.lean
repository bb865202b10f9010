import PickSyntax.Proofs.Expression.Spelled
import PickSyntax.Proofs.Structure.Statements
import PickSyntax.Proofs.Tree.Placed

/-!
# Proper trees

The types of a tree are plain data, and not all of their values are trees of a source. What is
said here of single nodes is what a reader of a tree may rely on beyond its types: a list that
is never empty, an operand that is there whenever another one is, a separator that can only
stand last.

A tree is sound when all its statements are proper and all the nodes of their expressions are as
wanted. That is a property of two lists, which are put together as the tree is. What is wanted of
a node may depend on where the statement begins that holds it.
-/
namespace PickSyntax

/-- A sub-value needs a value. A text ends at its delimiter or with its line, and holds
neither. -/
def Expr.Proper : Expr → Prop
  | .dynamic _ _ value subValue _ => subValue.isSome → value.isSome
  | .string value q _ => q.char ∉ value.toList ∧ '\n' ∉ value.toList
  | _ => True

/-- A print list goes on behind a comma, and behind nothing else: a colon keeps the line after
the last item, and between two operands it joins them. -/
structure PrintEntry.Proper (items : List PrintEntry) : Prop where
  comma : ∀ e ∈ items.dropLast, e.separator = some .comma
  colon : ∀ es e fs, items = es ++ e :: fs → e.separator = some .colon → fs = []

/-- Which of the file and the attribute needs the other one. -/
def RecordPath.Proper (ofAttr : Bool) (path : RecordPath) : Prop :=
  if ofAttr then path.file.isSome → path.attr.isSome else path.attr.isSome → path.file.isSome

/-- A clause has a branch, and each branch on one line is a single statement. -/
structure Clause.Proper (c : Clause) : Prop where
  branch : c.thenBody.isSome ∨ c.elseBody.isSome
  single : c.layout = .inline → ∀ is, c.thenBody = some is ∨ c.elseBody = some is →
    ∃ st, is = [.statement st]

/-- What the operands of a form owe each other. -/
def Form.OperandsProper : Form → Prop
  | .assignment target _ => target.isAssignable
  | .print _ items | .crt items => PrintEntry.Proper items
  | .dim arrays => arrays ≠ []
  | .common _ names => names ≠ []
  | .jumpOn _ _ targets => targets ≠ []
  | .data values => values ≠ []
  | .subroutine unit params => unit = none → params = []
  | .read mode _ path _ _ _ | .write mode _ path _ => path.Proper mode.addressesAttr
  | .delete path _ _ | .matRead _ _ path _ _ _ | .matWrite _ _ path _ => path.Proper false
  | _ => True

structure Form.Proper (f : Form) : Prop where
  operands : f.OperandsProper
  clause : ∀ c ∈ f.clause?, c.Proper

theorem PrintEntry.Proper.of_comma {items : List PrintEntry}
    (h : ∀ e ∈ items.dropLast, e.separator = some .comma) : PrintEntry.Proper items := by
  refine ⟨h, fun es e fs hi hcolon => ?_⟩
  subst hi
  cases fs with
  | nil => rfl
  | cons f fs =>
    have hcomma := h e (by simp)
    rw [hcomma] at hcolon
    cases hcolon

/-- The statements and the expressions of a tree are proper. -/
structure AllProper (statements : List Statement) (held : List Placed) : Prop where
  forms : ∀ st ∈ statements, st.form.Proper
  exprs : ∀ x ∈ held, ∀ e ∈ x.expr.nodes, e.Proper

/-- Every statement of the program, and every node of every expression in it, is proper. -/
def Program.Proper (p : Program) : Prop := AllProper p.allStatements p.placed

/-- Every node of the expression is as `P` says. -/
def Expr.Sound (P : Expr → Prop) (e : Expr) : Prop := ∀ x ∈ e.nodes, P x

section Sound
variable (E : Nat → Expr → Prop)

/-- The statements of a tree are proper, and every node of its expressions is as `E` says. -/
structure AllSound (statements : List Statement) (held : List Placed) : Prop where
  forms : ∀ st ∈ statements, st.form.Proper
  exprs : ∀ x ∈ held, x.expr.Sound (E x.start)

/-- The expression is sound wherever the statement begins that holds it. -/
def Expr.Held (e : Expr) : Prop := ∀ start, e.Sound (E start)

def Item.SoundAll (is : List Item) : Prop := AllSound E (statementsAll is) (placedAll is)

def Statement.Sound (st : Statement) : Prop := AllSound E st.all st.placed

def Clause.Sound (c : Clause) : Prop := c.Proper ∧ Item.SoundAll E c.items

def CaseArm.SoundAll (cases : List CaseArm) : Prop :=
  ∀ start, AllSound E (nestedAll cases) (placedAll start cases)

/-- The form is sound in a statement that begins at `start`. -/
def Form.SoundAt (start : Nat) (f : Form) : Prop :=
  f.Proper ∧ AllSound E f.nested (f.placed start)

def Form.Sound (f : Form) : Prop := ∀ start, f.SoundAt E start

end Sound

variable {E : Nat → Expr → Prop} {P : Expr → Prop}

namespace Expr

theorem forall_nodesOf {es : List Expr} : (∀ x ∈ nodesOf es, P x) ↔ ∀ e ∈ es, e.Sound P := by
  rw [nodesOf_eq_flatMap]
  exact List.forall_mem_flatMap

section Nodes
variable {left right operand inner e : Expr} {op : BinaryOp} {sign : UnaryOp} {range : Span}
variable {word : String} {args : List Expr} {second third : Option Expr}

theorem sound_binary : (binary left op right range).Sound P ↔
    P (.binary left op right range) ∧ left.Sound P ∧ right.Sound P := by
  simp only [Sound, nodes, List.forall_mem_cons, List.forall_mem_append]

theorem sound_unary : (unary sign operand range).Sound P ↔
    P (.unary sign operand range) ∧ operand.Sound P := by
  simp only [Sound, nodes, List.forall_mem_cons]

theorem sound_call : (call word args range).Sound P ↔
    P (.call word args range) ∧ ∀ a ∈ args, a.Sound P := by
  rw [← forall_nodesOf, Sound, nodes, List.forall_mem_cons]

theorem sound_dynamic : (dynamic word e second third range).Sound P ↔
    P (.dynamic word e second third range) ∧
      ∀ a ∈ e :: (second.toList ++ third.toList), a.Sound P := by
  rw [← forall_nodesOf, Sound, nodes, List.forall_mem_cons]
  simp only [nodesOf, nodesOf?_eq, nodesOf_append, List.append_assoc]

theorem sound_substring : (substring word e second range).Sound P ↔
    P (.substring word e second range) ∧ ∀ a ∈ e :: second.toList, a.Sound P := by
  rw [← forall_nodesOf, Sound, nodes, List.forall_mem_cons]
  simp only [nodesOf, nodesOf?_eq]

theorem sound_cursor : (cursor e second range).Sound P ↔
    P (.cursor e second range) ∧ ∀ a ∈ e :: second.toList, a.Sound P := by
  rw [← forall_nodesOf, Sound, nodes, List.forall_mem_cons]
  simp only [nodesOf, nodesOf?_eq]

theorem sound_paren : (paren inner range).Sound P ↔ P (.paren inner range) ∧ inner.Sound P := by
  simp only [Sound, nodes, List.forall_mem_cons]

end Nodes
end Expr

theorem AllSound.nil : AllSound E [] [] := ⟨nofun, nofun⟩

theorem AllSound.append {ss ts : List Statement} {hs ks : List Placed} (h : AllSound E ss hs)
    (k : AllSound E ts ks) : AllSound E (ss ++ ts) (hs ++ ks) :=
  ⟨List.forall_mem_append.mpr ⟨h.forms, k.forms⟩, List.forall_mem_append.mpr ⟨h.exprs, k.exprs⟩⟩

theorem AllSound.held {start : Nat} {es : List Expr} (h : ∀ e ∈ es, e.Sound (E start)) :
    AllSound E [] (placedAt start es) := by
  refine ⟨nofun, fun x hx => ?_⟩
  obtain ⟨e, he, rfl⟩ := List.mem_map.mp hx
  exact h e he

theorem Statement.sound_of_form {f : Form} {span : Span} (h : f.SoundAt E span.start) :
    Statement.Sound E ⟨f, span⟩ := by
  refine ⟨fun st hst => ?_, h.2.exprs⟩
  rw [Statement.all_eq] at hst
  obtain rfl | hst := List.mem_cons.mp hst
  · exact h.1
  · exact h.2.forms st hst

theorem Statement.Sound.of_option {o : Option Statement} (h : ∀ st ∈ o, st.Sound E) :
    AllSound E (all? o) (placed? o) := by
  cases o with
  | none => exact .nil
  | some st => exact h st rfl

namespace Item

theorem SoundAll.nil : SoundAll E [] := AllSound.nil

theorem placedAll_append (is js : List Item) :
    placedAll (is ++ js) = placedAll is ++ placedAll js := by
  induction is with
  | nil => rfl
  | cons i is ih => rw [List.cons_append, placedAll, ih, placedAll, List.append_assoc]

theorem SoundAll.append {is js : List Item} (h : SoundAll E is) (k : SoundAll E js) :
    SoundAll E (is ++ js) := by
  have hboth := AllSound.append h k
  rwa [← statementsAll_append, ← placedAll_append] at hboth

theorem soundAll_statement {st : Statement} (h : st.Sound E) : SoundAll E [.statement st] := by
  have hst := AllSound.append h .nil
  unfold SoundAll
  rwa [statementsAll_statement, statementsAll_nil, placedAll, placed, placedAll]

theorem soundAll_comments (cs : List Comment) : SoundAll E (cs.map .comment) := by
  induction cs with
  | nil => exact .nil
  | cons c cs ih => exact @SoundAll.append _ [.comment c] _ AllSound.nil ih

end Item

theorem Clause.Sound.nested {c : Clause} (h : c.Sound E) : AllSound E c.nested c.placed := by
  have hitems := h.2
  obtain ⟨_ | is, _ | js, l⟩ := c <;>
    simpa [Item.SoundAll, Clause.nested, Clause.placed, Clause.items, Item.statementsAll?,
      Item.placedAll?, Item.placedAll_append, Item.placedAll] using hitems

theorem Clause.Sound.of_option {o : Option Clause} (h : ∀ c ∈ o, c.Sound E) :
    AllSound E (nested? o) (placed? o) := by
  cases o with
  | none => exact .nil
  | some c => exact (h c rfl).nested

theorem CaseArm.SoundAll.nil : SoundAll E [] := fun _ => AllSound.nil

theorem CaseArm.placedAll_append (start : Nat) (cs ds : List CaseArm) :
    placedAll start (cs ++ ds) = placedAll start cs ++ placedAll start ds := by
  induction cs with
  | nil => rfl
  | cons c cs ih => rw [List.cons_append, placedAll, ih, placedAll, List.append_assoc]

theorem CaseArm.SoundAll.concat {cs : List CaseArm} {c : CaseArm} (h : SoundAll E cs)
    (hc : c.condition.Held E) (hb : Item.SoundAll E c.body) : SoundAll E (cs ++ [c]) := by
  intro start
  have hcondition : AllSound E [] (placedAt start [c.condition]) := .held (by simpa using hc start)
  have hboth := (h start).append (hcondition.append hb)
  rw [nestedAll_concat, placedAll_append]
  obtain ⟨condition, body, span⟩ := c
  simpa [placedAll, placed, placedAt] using hboth

/-- The expressions of a form that is no block, without those in what is attached to it. -/
def Form.operands : Form → List Expr
  | .dim arrays => arrays.flatMap ArrayBounds.exprs
  | .equate _ _ value | .mat _ value | .operand _ value | .expression value => [value]
  | .assignment target value => [target, value]
  | .ifThen condition _ => [condition]
  | .jumpOn selector _ _ => [selector]
  | .print channel items => channel.toList ++ items.map PrintEntry.expr
  | .crt items => items.map PrintEntry.expr
  | .input _ length _ _ => length.toList
  | .inputAt column row _ length _ _ => column :: row :: length.toList
  | .inputTrap keys _ => [keys]
  | .data values => values
  | .openFile dictionary file _ _ _ => dictionary.toList ++ [file]
  | .read _ _ path _ _ _ | .delete path _ _ | .matRead _ _ path _ _ _ | .matWrite _ _ path _ =>
    path.exprs
  | .write _ value path _ => value :: path.exprs
  | .writeTape value device => [value, device]
  | .select source _ => source.toList
  | .lock number _ _ => [number]
  | .clearFile file _ => [file]
  | .locate value container _ _ => [value, container]
  | .execute command _ _ => [command]
  | .call _ _ args => args
  | .optional _ value => value.toList
  | _ => []

def Attachments.placed (a : Attachments) : List Placed :=
  Statement.placed? a.onError ++ (Statement.placed? a.locked ++ Clause.placed? a.clause)

theorem Form.placed_of_attachments {f : Form} {a : Attachments} (h : f.attachments? = some a)
    (start : Nat) : f.placed start = placedAt start f.operands ++ a.placed := by
  cases f <;> cases h <;>
    simp only [Form.placed, Form.operands, Attachments.placed, Attachments.none, placedAt,
      Statement.placed?, Clause.placed?, List.map_append, List.map_cons, List.map_nil,
      List.append_assoc, List.append_nil, List.nil_append, List.cons_append]

structure Attachments.Sound (E : Nat → Expr → Prop) (a : Attachments) : Prop where
  onError : ∀ st ∈ a.onError, st.Sound E
  locked : ∀ st ∈ a.locked, st.Sound E
  clause : ∀ c ∈ a.clause, c.Sound E

theorem Attachments.Sound.none : Attachments.none.Sound E := ⟨nofun, nofun, nofun⟩

/-- Without a `LOCKED`. -/
theorem Attachments.Sound.unlocked {onError : Option Statement} {clause : Option Clause}
    (he : ∀ st ∈ onError, st.Sound E) (hc : ∀ c ∈ clause, c.Sound E) :
    Attachments.Sound E ⟨onError, .none, clause⟩ :=
  ⟨he, Sound.none.locked, hc⟩

theorem Attachments.Sound.of_clause {clause : Option Clause} (hc : ∀ c ∈ clause, c.Sound E) :
    Attachments.Sound E ⟨.none, .none, clause⟩ :=
  .unlocked Sound.none.onError hc

theorem Attachments.Sound.of_onError {onError : Option Statement} (he : ∀ st ∈ onError, st.Sound E) :
    Attachments.Sound E ⟨onError, .none, .none⟩ :=
  .unlocked he Sound.none.clause

/-- A form that is no block is as sound as its parts. -/
theorem Form.soundAt_of_attachments {f : Form} {a : Attachments} {start : Nat}
    (h : f.attachments? = some a) (hf : f.OperandsProper)
    (he : ∀ e ∈ f.operands, e.Sound (E start)) (ha : a.Sound E) : f.SoundAt E start := by
  refine ⟨⟨hf, fun c hc => ?_⟩, ?_⟩
  · rw [clause?_of_attachments h] at hc
    exact (ha.clause c hc).1
  · rw [nested_of_attachments h, placed_of_attachments h]
    have hattached := (Statement.Sound.of_option ha.onError).append
      ((Statement.Sound.of_option ha.locked).append (Clause.Sound.of_option ha.clause))
    exact @AllSound.append _ [] a.nested _ a.placed (.held he) hattached

theorem Form.sound_of_attachments {f : Form} {a : Attachments} (h : f.attachments? = some a)
    (hf : f.OperandsProper) (he : ∀ e ∈ f.operands, e.Held E) (ha : a.Sound E) : f.Sound E :=
  fun start => soundAt_of_attachments h hf (fun e hmem => he e hmem start) ha

/-- A token of a text goes up to its delimiter or to the end of its line. -/
def Token.WellQuoted (t : Token) : Prop :=
  ∀ q, t.kind = .string q →
    q.char ∉ Grammar.unquote q t.text.toList ∧ '\n' ∉ Grammar.unquote q t.text.toList

theorem Spells.proper {ts : List Token} {es : List Expr} (h : Spells ts es)
    (hq : ∀ t ∈ ts, t.WellQuoted) : ∀ x ∈ Expr.nodesOf es, x.Proper := by
  induction h with
  | nothing => simp [Expr.nodesOf]
  | comma _ _ _ _ ih ih' =>
    rw [Expr.nodesOf_append]
    exact List.forall_mem_append.mpr ⟨ih fun t ht => hq t (by simp [ht]),
      ih' fun t ht => hq t (by simp [ht])⟩
  | binary _ _ _ ih ih' =>
    have hl := ih fun t ht => hq t (by simp [ht])
    have hr := ih' fun t ht => hq t (by simp [ht])
    simp only [Expr.nodesOf, Expr.nodes, List.append_nil, List.forall_mem_cons,
      List.forall_mem_append] at hl hr ⊢
    exact ⟨trivial, hl, hr⟩
  | string hk => simpa [Expr.nodesOf, Expr.nodes, Expr.Proper] using hq _ (by simp) _ hk
  | dynamic _ _ _ hsub _ ih =>
    have hargs := ih fun t ht => hq t (by simp [ht])
    simp only [Expr.nodesOf, Expr.nodes, Expr.nodesOf?_eq, Expr.nodesOf_append, List.append_nil,
      List.forall_mem_cons, List.forall_mem_append, List.append_assoc] at hargs ⊢
    refine ⟨fun hsome => ?_, hargs⟩
    rw [Option.isSome_iff_ne_none] at hsome ⊢
    exact fun hvalue => hsome (hsub hvalue)
  | name | number | system => simp [Expr.nodesOf, Expr.nodes, Expr.Proper]
  | unary _ _ ih | call _ _ _ _ ih | substring _ _ _ _ ih | cursor _ _ _ _ ih | paren _ _ _ ih =>
    have hargs := ih fun t ht => hq t (by simp [ht])
    simp only [Expr.nodesOf, Expr.nodes, Expr.nodesOf?_eq, List.append_nil, List.forall_mem_cons,
      List.forall_mem_append] at hargs ⊢
    exact ⟨trivial, hargs⟩

theorem Spells.sound {ts : List Token} {es : List Expr} (h : Spells ts es)
    (hq : ∀ t ∈ ts, t.WellQuoted) : ∀ e ∈ es, e.Sound Expr.Proper := by
  have hproper := h.proper hq
  rw [Expr.nodesOf_eq_flatMap] at hproper
  exact fun e he x hx => hproper x (List.mem_flatMap.mpr ⟨e, he, hx⟩)

end PickSyntax
