import Mathlib
import PickSyntax.Diagnostic
import PickSyntax.Proofs.Outline.Writing
import PickSyntax.Proofs.Tree.Relocate

/-!
# Trees seen through a view

A view leaves out a part of what is written in a source. It has a look for every character of a
stored text, for every byte offset and for every position, and it may leave comments out
altogether. `seen v` is the data as it looks through the view: two trees that look the same
agree in all that the view keeps.

Only capital letters may look different, and they look like letters, so quotes and the marks of
the language are seen as they are. Offsets keep their order. Where comments are seen, so is
which of two places is the first.

The shape of a tree is not touched. Comments apart, a tree has the same outline through every
view.
-/
namespace PickSyntax

structure View where
  /-- How a character of a text looks. -/
  char : Char → Char
  /-- How a byte offset looks. -/
  offset : Nat → Nat
  /-- How a position looks. -/
  position : Position → Position
  /-- Comments are seen. -/
  comments : Bool
  char_eq : ∀ {c : Char}, c.isUpper = false → char c = c
  char_isAlpha : ∀ {c : Char}, c.isUpper = true → (char c).isAlpha = true
  offset_zero : offset 0 = 0
  offset_le : ∀ {a b}, a ≤ b → offset a ≤ offset b
  offset_lt : comments = true → ∀ {a b}, a < b → offset a < offset b

namespace View

/-- Letters look alike in both cases. -/
def folded : View where
  char := Char.toLower
  offset := id
  position := id
  comments := true
  char_eq h := Char.toLower_eq_of_not_isUpper (by simp [h])
  char_isAlpha h := by simp [Char.isAlpha, h]
  offset_zero := rfl
  offset_le h := h
  offset_lt _ _ _ h := h

/-- All but comments. -/
def uncommented : View where
  char := id
  offset := id
  position := id
  comments := false
  char_eq _ := rfl
  char_isAlpha h := by simp [Char.isAlpha, h]
  offset_zero := rfl
  offset_le h := h
  offset_lt := nofun

/-- All but comments and places. -/
def unplaced : View where
  char := id
  offset := fun _ => 0
  position := fun _ => .origin
  comments := false
  char_eq _ := rfl
  char_isAlpha h := by simp [Char.isAlpha, h]
  offset_zero := rfl
  offset_le _ := Nat.le_refl _
  offset_lt := nofun

/-- A text as it looks. -/
def text (v : View) (text : String) : String := String.ofList (text.toList.map v.char)

/-- A character that is no letter is seen as it is, and nothing else looks like it. -/
theorem char_eq_iff (v : View) {c d : Char} (hd : d.isAlpha = false) : v.char c = d ↔ c = d := by
  have hu : d.isUpper = false := by
    simp only [Char.isAlpha, Bool.or_eq_false_iff] at hd
    exact hd.1
  refine ⟨fun h => ?_, fun h => h ▸ v.char_eq (h ▸ hu)⟩
  cases hc : c.isUpper with
  | false => rwa [v.char_eq hc] at h
  | true =>
    have ha := v.char_isAlpha hc
    rw [h, hd] at ha
    contradiction

/-- A text without capital letters is seen as it is. -/
theorem text_eq (v : View) {t : String} (h : t.toList.all fun c => !c.isUpper) : v.text t = t := by
  have hm : t.toList.map v.char = t.toList.map id := by
    refine List.map_congr_left fun c hc => v.char_eq ?_
    simpa using List.all_eq_true.mp h c hc
  rw [text, hm, List.map_id, String.ofList_toList]

@[simp] theorem text_append (v : View) (a b : String) : v.text (a ++ b) = v.text a ++ v.text b := by
  simp [text]

theorem monotone (v : View) : Monotone v.offset := fun _ _ => v.offset_le

/-- Where comments are seen, the order of two places is seen. -/
theorem offset_lt_iff (v : View) (h : v.comments = true) {a b : Nat} :
    v.offset a < v.offset b ↔ a < b := by
  have hl := v.offset_lt h (a := a) (b := b)
  have hr := v.offset_le (a := b) (b := a)
  omega

end View

section Leaves
variable (v : View) (a b : Span)

def Span.seen (s : Span) : Span := s.relocate v.offset

@[simp] theorem Span.seen_start : (a.seen v).start = v.offset a.start := rfl

@[simp] theorem Span.seen_stop : (a.seen v).stop = v.offset a.stop := rfl

@[simp] theorem Span.seen_mk (m n : Nat) :
    (⟨m, n⟩ : Span).seen v = ⟨v.offset m, v.offset n⟩ := rfl

@[simp] theorem Span.seen_point (n : Nat) : (point n).seen v = point (v.offset n) := rfl

@[simp] theorem Span.seen_merge : (a.merge b).seen v = (a.seen v).merge (b.seen v) := by
  rw [merge, seen_mk, v.monotone.map_min, v.monotone.map_max]
  rfl

/-- Of a fault, the words quoted from the source are looked at. -/
def Cause.seen : Cause → Cause
  | .wrongToken expected found => .wrongToken expected (v.text found)
  | .noOperand reason => .noOperand (v.text reason)
  | cause => cause

attribute [simp] Cause.seen

def Fault.seen (f : Fault) : Fault := ⟨f.cause.seen v, f.span.seen v⟩

def Diagnostic.seen (d : Diagnostic) : Diagnostic :=
  ⟨d.severity, d.fault.seen v, v.position d.position⟩

def Token.seen (t : Token) : Token where
  kind := t.kind
  span := t.span.seen v
  text := v.text t.text
  position := v.position t.position
  spaced := t.spaced
  lineStart := t.lineStart

def Comment.seen (c : Comment) : Comment := ⟨c.mark, v.text c.text, c.span.seen v⟩

/-- The comments of a list, if comments are seen. -/
def Comment.seenAll (cs : List Comment) : List Comment :=
  if v.comments then cs.map (seen v) else []

def Label.seen (l : Label) : Label := ⟨v.text l.name, l.span.seen v⟩

def Target.seen (t : Target) : Target := ⟨v.text t.name, t.numeric, t.span.seen v⟩

@[simp] theorem Token.seen_kind (t : Token) : (t.seen v).kind = t.kind := rfl

@[simp] theorem Token.seen_text (t : Token) : (t.seen v).text = v.text t.text := rfl

@[simp] theorem Token.seen_span (t : Token) : (t.seen v).span = t.span.seen v := rfl

@[simp] theorem Token.seen_spaced (t : Token) : (t.seen v).spaced = t.spaced := rfl

@[simp] theorem Token.seen_lineStart (t : Token) : (t.seen v).lineStart = t.lineStart := rfl

/-- Messages call a token by its text or by a word without capital letters. -/
@[simp] theorem Token.describe_seen (t : Token) : (t.seen v).describe = v.text t.describe := by
  have hq : v.text "\x60" = "\x60" := v.text_eq (by decide)
  have hk : ∀ k : TokenKind, (∀ w, k ≠ .keyword w) → v.text k.describe = k.describe := by
    intro k hk
    refine v.text_eq ?_
    cases k with
    | keyword w => exact absurd rfl (hk w)
    | symbol y => cases y <;> decide
    | string q => cases q <;> decide
    | _ => decide
  unfold describe
  rw [seen_kind, seen_text]
  split
  next => simp [hq]
  next => simp [hq]
  next => simp [hq]
  next hk' _ _ => exact (hk _ hk').symm

end Leaves

namespace Expr

mutual

def seen (v : View) : Expr → Expr
  | .binary left op right s => .binary (left.seen v) op (right.seen v) (s.seen v)
  | .unary op operand s => .unary op (operand.seen v) (s.seen v)
  | .name text s => .name (v.text text) (s.seen v)
  | .number text s => .number (v.text text) (s.seen v)
  | .string value q s => .string (v.text value) q (s.seen v)
  | .call text args s => .call (v.text text) (seenAll v args) (s.seen v)
  | .dynamic text attr value subValue s =>
    .dynamic (v.text text) (attr.seen v) (seen? v value) (seen? v subValue) (s.seen v)
  | .substring text start length s =>
    .substring (v.text text) (start.seen v) (seen? v length) (s.seen v)
  | .cursor column row s => .cursor (column.seen v) (seen? v row) (s.seen v)
  | .system text s => .system (v.text text) (s.seen v)
  | .paren inner s => .paren (inner.seen v) (s.seen v)

def seenAll (v : View) : List Expr → List Expr
  | [] => []
  | e :: es => e.seen v :: seenAll v es

def seen? (v : View) : Option Expr → Option Expr
  | none => none
  | some e => some (e.seen v)

end

attribute [simp] seen

variable (v : View)

@[simp] theorem seenAll_eq_map (es : List Expr) : seenAll v es = es.map (seen v) := by
  induction es with
  | nil => rfl
  | cons e es ih => rw [seenAll, ih, List.map_cons]

@[simp] theorem seen?_eq_map (e : Option Expr) : seen? v e = e.map (seen v) := by
  cases e <;> rfl

@[simp] theorem seen_span (e : Expr) : (e.seen v).span = e.span.seen v := by
  cases e <;> simp [span]

@[simp] theorem seen_isAssignable (e : Expr) : (e.seen v).isAssignable = e.isAssignable := by
  cases e <;> simp [isAssignable]

mutual

theorem outline_seen : ∀ e : Expr, (e.seen v).outline = e.outline
  | .binary left _ right _ => by simp [outline, outline_seen left, outline_seen right]
  | .unary _ operand _ => by simp [outline, outline_seen operand]
  | .name .. | .number .. | .string .. | .system .. => by simp [outline]
  | .call _ args _ => by simpa [outline] using outlines_seen args
  | .dynamic _ attr value subValue _ => by
    have hv := field?_seen "value" value
    have hs := field?_seen "sub_value" subValue
    simp_all [outline, outline_seen attr]
  | .substring _ start length _ => by
    simpa [outline, outline_seen start] using field?_seen "length" length
  | .cursor column row _ => by
    simpa [outline, outline_seen column] using field?_seen "row" row
  | .paren inner _ => by simp [outline, outline_seen inner]

theorem outlines_seen : ∀ es : List Expr, outlines (es.map (seen v)) = outlines es
  | [] => rfl
  | e :: es => by simp [outlines, outline_seen e, outlines_seen es]

theorem field?_seen (label : String) :
    ∀ e : Option Expr, field? label (e.map (seen v)) = field? label e
  | none => rfl
  | some e => by simp [field?, outline_seen e]

end

end Expr

section Parts
variable (v : View)

def ArrayBounds.seen : ArrayBounds → ArrayBounds
  | ⟨name, rows, columns, s⟩ => ⟨v.text name, rows.seen v, columns.map (·.seen v), s.seen v⟩

def RecordPath.seen : RecordPath → RecordPath
  | ⟨file, key, attr⟩ => ⟨file.map (·.seen v), key.seen v, attr.map (·.seen v)⟩

def LoopGuard.seen : LoopGuard → LoopGuard
  | ⟨sense, condition⟩ => ⟨sense, condition.seen v⟩

def PrintEntry.seen : PrintEntry → PrintEntry
  | ⟨expr, separator⟩ => ⟨expr.seen v, separator⟩

end Parts

mutual

/-- An item, unless it is a comment and comments are not seen. -/
def Item.seen? (v : View) : Item → Option Item
  | .statement s => some (.statement (s.seen v))
  | .label l => some (.label (l.seen v))
  | .comment c => if v.comments then some (.comment (c.seen v)) else none

def Item.seenAll (v : View) : List Item → List Item
  | [] => []
  | i :: is => (i.seen? v).toList ++ Item.seenAll v is

def Item.seenAll? (v : View) : Option (List Item) → Option (List Item)
  | none => none
  | some body => some (Item.seenAll v body)

def Statement.seen (v : View) : Statement → Statement
  | ⟨form, s⟩ => ⟨form.seen v, s.seen v⟩

def Statement.seen? (v : View) : Option Statement → Option Statement
  | none => none
  | some s => some (s.seen v)

def Clause.seen (v : View) : Clause → Clause
  | ⟨thenBody, elseBody, layout⟩ => ⟨Item.seenAll? v thenBody, Item.seenAll? v elseBody, layout⟩

def Clause.seen? (v : View) : Option Clause → Option Clause
  | none => none
  | some c => some (c.seen v)

def CaseArm.seen (v : View) : CaseArm → CaseArm
  | ⟨condition, body, s⟩ => ⟨condition.seen v, Item.seenAll v body, s.seen v⟩

def CaseArm.seenAll (v : View) : List CaseArm → List CaseArm
  | [] => []
  | c :: cs => c.seen v :: CaseArm.seenAll v cs

def Form.seen (v : View) : Form → Form
  | .subroutine name params => .subroutine (name.map v.text) (params.map v.text)
  | .endUnit => .endUnit
  | .dim arrays => .dim (arrays.map (·.seen v))
  | .common block names => .common (block.map v.text) (names.map v.text)
  | .equate name sense value => .equate (v.text name) sense (value.seen v)
  | .assignment target value => .assignment (target.seen v) (value.seen v)
  | .mat array value => .mat (v.text array) (value.seen v)
  | .ifThen condition clause => .ifThen (condition.seen v) (clause.seen v)
  | .beginCase cases => .beginCase (CaseArm.seenAll v cases)
  | .forNext counter start limit step guard body nextName =>
    .forNext (v.text counter) (start.seen v) (limit.seen v) (step.map (·.seen v))
      (guard.map (·.seen v)) (Item.seenAll v body) (nextName.map v.text)
  | .loop before guard after =>
    .loop (Item.seenAll v before) (guard.map (·.seen v)) (Item.seenAll v after)
  | .jump kind target => .jump kind (target.seen v)
  | .jumpOn selector kind targets => .jumpOn (selector.seen v) kind (targets.map (·.seen v))
  | .returnTo target => .returnTo (target.map (·.seen v))
  | .print channel items => .print (channel.map (·.seen v)) (items.map (·.seen v))
  | .crt items => .crt (items.map (·.seen v))
  | .input name length stay clause =>
    .input (v.text name) (length.map (·.seen v)) stay (Clause.seen? v clause)
  | .inputAt column row name length stay clause =>
    .inputAt (column.seen v) (row.seen v) (v.text name) (length.map (·.seen v)) stay
      (Clause.seen? v clause)
  | .inputTrap keys target => .inputTrap (keys.seen v) (target.map (·.seen v))
  | .data values => .data (values.map (·.seen v))
  | .switch device state => .switch device state
  | .openFile dictionary file name onError clause =>
    .openFile (dictionary.map (·.seen v)) (file.seen v) (name.map v.text)
      (Statement.seen? v onError) (clause.seen v)
  | .read mode name path onError locked clause =>
    .read mode (v.text name) (path.seen v) (Statement.seen? v onError)
      (Statement.seen? v locked) (Clause.seen? v clause)
  | .write mode value path onError =>
    .write mode (value.seen v) (path.seen v) (Statement.seen? v onError)
  | .delete path onError clause =>
    .delete (path.seen v) (Statement.seen? v onError) (Clause.seen? v clause)
  | .receive feed name clause => .receive feed (v.text name) (Clause.seen? v clause)
  | .writeTape value device => .writeTape (value.seen v) (device.seen v)
  | .select source list => .select (source.map (·.seen v)) (list.map v.text)
  | .lock lock locked clause =>
    .lock (lock.seen v) (Statement.seen? v locked) (Clause.seen? v clause)
  | .clearFile file onError => .clearFile (file.seen v) (Statement.seen? v onError)
  | .matRead locking array path onError locked clause =>
    .matRead locking (v.text array) (path.seen v) (Statement.seen? v onError)
      (Statement.seen? v locked) (Clause.seen? v clause)
  | .matWrite locking array path onError =>
    .matWrite locking (v.text array) (path.seen v) (Statement.seen? v onError)
  | .locate value container setting clause =>
    .locate (value.seen v) (container.seen v) (setting.map v.text) (Clause.seen? v clause)
  | .execute command capturing returning =>
    .execute (command.seen v) (capturing.map v.text) (returning.map v.text)
  | .call name indirect args => .call (v.text name) indirect (args.map (·.seen v))
  | .operand verb value => .operand verb (value.seen v)
  | .optional verb value => .optional verb (value.map (·.seen v))
  | .bare verb => .bare verb
  | .expression expr => .expression (expr.seen v)

end

attribute [simp] Item.seen? Item.seenAll Statement.seen Clause.seen CaseArm.seen Form.seen

def Program.seen (v : View) (p : Program) : Program := ⟨Item.seenAll v p.items⟩

section Bridges
variable (v : View)

theorem Item.seenAll_eq_filterMap (is : List Item) :
    Item.seenAll v is = is.filterMap (Item.seen? v) := by
  induction is with
  | nil => simp
  | cons i is ih => cases h : Item.seen? v i <;> simp [h, ih]

@[simp] theorem Item.seenAll_append (is js : List Item) :
    Item.seenAll v (is ++ js) = Item.seenAll v is ++ Item.seenAll v js := by
  simp only [Item.seenAll_eq_filterMap, List.filterMap_append]

@[simp] theorem Item.seenAll_toList (i : Option Item) :
    Item.seenAll v i.toList = (i.bind (Item.seen? v)).toList := by
  cases i <;> simp

@[simp] theorem Item.seenAll_comments (cs : List Comment) :
    Item.seenAll v (cs.map Item.comment) = (Comment.seenAll v cs).map Item.comment := by
  rw [Item.seenAll_eq_filterMap, Comment.seenAll]
  cases hv : v.comments with
  | false => simp [List.filterMap_map, Function.comp_def, hv]
  | true => simp [List.filterMap_map, Function.comp_def, hv]

@[simp] theorem Item.seenAll?_eq_map (body : Option (List Item)) :
    Item.seenAll? v body = body.map (Item.seenAll v) := by
  cases body <;> simp [Item.seenAll?]

@[simp] theorem Statement.seen?_eq_map (s : Option Statement) :
    Statement.seen? v s = s.map (Statement.seen v) := by
  cases s <;> simp [Statement.seen?]

@[simp] theorem Clause.seen?_eq_map (c : Option Clause) :
    Clause.seen? v c = c.map (Clause.seen v) := by
  cases c <;> simp [Clause.seen?]

@[simp] theorem CaseArm.seenAll_eq_map (cs : List CaseArm) :
    CaseArm.seenAll v cs = cs.map (CaseArm.seen v) := by
  induction cs with
  | nil => simp [CaseArm.seenAll]
  | cons c cs ih => rw [CaseArm.seenAll, ih, List.map_cons]

end Bridges

-- An outline has no texts and no ranges, so a view that sees comments sees the whole of it.

section Outline
variable {v : View}

@[simp] theorem nameField?_map (label : String) (f : String → String) (name : Option String) :
    nameField? label (name.map f) = nameField? label name := by
  cases name <;> rfl

@[simp] theorem Target.outline_seen (t : Target) : (t.seen v).outline = t.outline := rfl

@[simp] theorem ArrayBounds.outline_seen (d : ArrayBounds) : (d.seen v).outline = d.outline := by
  simp [outline, seen, Expr.field, Expr.outline_seen, Expr.field?_seen]

@[simp] theorem RecordPath.outline_seen (a : RecordPath) : (a.seen v).outline = a.outline := by
  simp [outline, seen, Expr.field, Expr.outline_seen, Expr.field?_seen]

@[simp] theorem LoopGuard.outline?_seen (g : Option LoopGuard) :
    LoopGuard.outline? (g.map (·.seen v)) = LoopGuard.outline? g := by
  cases g <;> simp [outline?, seen, Expr.field, Expr.outline_seen]

@[simp] theorem PrintEntry.outline_seen (items : List PrintEntry) :
    PrintEntry.outline (items.map (·.seen v)) = PrintEntry.outline items := by
  cases items <;> simp [outline, seen, Expr.outline_seen]

attribute [local simp] Expr.field Expr.outline_seen Expr.field?_seen Expr.outlines_seen

theorem Item.isEmpty_seenAll (hv : v.comments = true) (is : List Item) :
    (Item.seenAll v is).isEmpty = is.isEmpty := by
  cases is with
  | nil => simp
  | cons i is => cases i <;> simp [hv]

mutual

theorem Item.outlines_seen (hv : v.comments = true) :
    ∀ is : List Item, Item.outlines (Item.seenAll v is) = Item.outlines is
  | [] => by simp [Item.outlines]
  | .statement s :: is => by
    simp [Item.outlines, Item.outline, Statement.outline_seen hv s, Item.outlines_seen hv is]
  | .label _ :: is => by simp [Item.outlines, Item.outline, Item.outlines_seen hv is]
  | .comment _ :: is => by simp [Item.outlines, Item.outline, Item.outlines_seen hv is, hv]

theorem Item.outlineBody?_seen (hv : v.comments = true) (node : String) :
    ∀ body : Option (List Item),
      Item.outlineBody? node (body.map (Item.seenAll v)) = Item.outlineBody? node body
  | none => rfl
  | some body => by simp [Item.outlineBody?, Item.outlines_seen hv body]

theorem Statement.outline_seen (hv : v.comments = true) :
    ∀ s : Statement, (s.seen v).outline = s.outline
  | ⟨form, _⟩ => by
    have hn : (form.seen v).nodeName = form.nodeName := by cases form <;> simp [Form.nodeName]
    simp [Statement.outline, hn, Form.outline_seen hv form]

theorem Statement.outlineClause?_seen (hv : v.comments = true) (node : String) :
    ∀ s : Option Statement,
      Statement.outlineClause? node (s.map (Statement.seen v)) = Statement.outlineClause? node s
  | none => rfl
  | some s => by simp [Statement.outlineClause?, Statement.outline_seen hv s]

theorem Clause.outline_seen (hv : v.comments = true) : ∀ c : Clause, (c.seen v).outline = c.outline
  | ⟨thenBody, elseBody, _⟩ => by
    simp [Clause.outline, Item.outlineBody?_seen hv _ thenBody,
      Item.outlineBody?_seen hv _ elseBody]

theorem Clause.outline?_seen (hv : v.comments = true) :
    ∀ c : Option Clause, Clause.outline? (c.map (Clause.seen v)) = Clause.outline? c
  | none => rfl
  | some c => by simp [Clause.outline?, Clause.outline_seen hv c]

theorem CaseArm.outlines_seen (hv : v.comments = true) :
    ∀ cs : List CaseArm, CaseArm.outlines (cs.map (CaseArm.seen v)) = CaseArm.outlines cs
  | [] => rfl
  | ⟨_, body, _⟩ :: cs => by
    simp [CaseArm.outlines, CaseArm.outline, Item.outlines_seen hv body,
      CaseArm.outlines_seen hv cs]

theorem Form.outline_seen (hv : v.comments = true) :
    ∀ form : Form, (form.seen v).outline = form.outline
  | .ifThen _ clause => by simp [Form.outline, Clause.outline_seen hv clause]
  | .beginCase cases => by simp [Form.outline, CaseArm.outlines_seen hv cases]
  | .forNext _ _ _ _ _ body _ => by simp [Form.outline, Item.outlines_seen hv body]
  | .loop before _ after => by
    simp [Form.outline, Item.outlines_seen hv before, Item.outlines_seen hv after,
      Item.isEmpty_seenAll hv]
  | .input _ _ _ clause => by simp [Form.outline, Clause.outline?_seen hv clause]
  | .inputAt _ _ _ _ _ clause => by simp [Form.outline, Clause.outline?_seen hv clause]
  | .openFile _ _ _ onError clause => by
    simp [Form.outline, Statement.outlineClause?_seen hv _ onError, Clause.outline_seen hv clause]
  | .read _ _ _ onError locked clause => by
    simp [Form.outline, Statement.outlineClause?_seen hv _ onError,
      Statement.outlineClause?_seen hv _ locked, Clause.outline?_seen hv clause]
  | .write _ _ _ onError => by simp [Form.outline, Statement.outlineClause?_seen hv _ onError]
  | .delete _ onError clause => by
    simp [Form.outline, Statement.outlineClause?_seen hv _ onError, Clause.outline?_seen hv clause]
  | .receive _ _ clause => by simp [Form.outline, Clause.outline?_seen hv clause]
  | .lock _ locked clause => by
    simp [Form.outline, Statement.outlineClause?_seen hv _ locked, Clause.outline?_seen hv clause]
  | .clearFile _ onError => by simp [Form.outline, Statement.outlineClause?_seen hv _ onError]
  | .matRead _ _ _ onError locked clause => by
    simp [Form.outline, Statement.outlineClause?_seen hv _ onError,
      Statement.outlineClause?_seen hv _ locked, Clause.outline?_seen hv clause]
  | .matWrite _ _ _ onError => by simp [Form.outline, Statement.outlineClause?_seen hv _ onError]
  | .locate _ _ _ clause => by simp [Form.outline, Clause.outline?_seen hv clause]
  | .subroutine .. | .endUnit | .dim .. | .common .. | .equate .. | .assignment .. | .mat ..
  | .jump .. | .jumpOn .. | .returnTo .. | .print .. | .crt .. | .inputTrap .. | .data ..
  | .switch .. | .writeTape .. | .select .. | .execute .. | .call .. | .operand ..
  | .optional .. | .bare .. | .expression .. => by simp [Form.outline, Function.comp_def]

end

theorem Program.toSexp_seen (hv : v.comments = true) (p : Program) :
    (p.seen v).toSexp = p.toSexp := by
  simp [toSexp_eq_render, outline, seen, Item.outlines_seen hv]

end Outline
end PickSyntax
