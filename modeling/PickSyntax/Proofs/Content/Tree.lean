import PickSyntax.Tree.Statement

/-!
# What a tree holds

Statements, labels, expressions, targets, array bounds and clauses of a `BEGIN CASE` remember
the range they were read from. An `Extent` is such a range together with the extents of the
parts, in the order in which they are written. Clauses, guards and print lists have no range
of their own, so their parts are parts of the statement around them. Comments are no extents;
they are gathered beside them, and so are the gaps between them: a `BEGIN CASE` without a clause
has no place in the tree for the comments in it.

All of it is collected in one `Content`, by one recursion over the tree.
-/
namespace PickSyntax

/-- The range of a node, and the extents of its parts. -/
structure Extent where
  span : Span
  parts : List Extent

/-- What a part of a tree holds. -/
structure Content where
  extents : List Extent
  /-- The comments in reading order, with a gap for every `BEGIN CASE` that has no clause. -/
  marks : List (Option Comment)

namespace Content

/-- The comments in reading order, at any depth. -/
def comments (c : Content) : List Comment := c.marks.filterMap id

/-- Some `BEGIN CASE` has no clause. -/
def caseless (c : Content) : Bool := c.marks.any Option.isNone

instance : EmptyCollection Content := ⟨⟨[], []⟩⟩

instance : Append Content := ⟨fun a b => ⟨a.extents ++ b.extents, a.marks ++ b.marks⟩⟩

/-- The content of a node with a range. -/
def within (span : Span) (parts : Content) : Content := ⟨[⟨span, parts.extents⟩], parts.marks⟩

/-- Comments side by side. -/
def ofComments (cs : List Comment) : Content := ⟨[], cs.map some⟩

/-- The content of a `BEGIN CASE` without a clause. -/
def gap : Content := ⟨[], [none]⟩

variable (a b c : Content) (span : Span) (cs ds : List Comment)

@[simp] theorem extents_empty : (∅ : Content).extents = [] := rfl
@[simp] theorem marks_empty : (∅ : Content).marks = [] := rfl
@[simp] theorem extents_append : (a ++ b).extents = a.extents ++ b.extents := rfl
@[simp] theorem marks_append : (a ++ b).marks = a.marks ++ b.marks := rfl
@[simp] theorem extents_within : (within span a).extents = [⟨span, a.extents⟩] := rfl
@[simp] theorem marks_within : (within span a).marks = a.marks := rfl
@[simp] theorem extents_ofComments : (ofComments cs).extents = [] := rfl
@[simp] theorem marks_ofComments : (ofComments cs).marks = cs.map some := rfl
@[simp] theorem extents_gap : gap.extents = [] := rfl
@[simp] theorem marks_gap : gap.marks = [none] := rfl

@[simp] theorem comments_empty : (∅ : Content).comments = [] := rfl

@[simp] theorem comments_append : (a ++ b).comments = a.comments ++ b.comments :=
  List.filterMap_append

@[simp] theorem comments_within : (within span a).comments = a.comments := rfl

@[simp] theorem comments_ofComments : (ofComments cs).comments = cs := by
  simp [comments, List.filterMap_map]

@[simp] theorem comments_gap : gap.comments = [] := rfl

variable {a b} in
theorem ext (he : a.extents = b.extents) (hm : a.marks = b.marks) : a = b := by
  cases a
  cases b
  simp_all

@[simp] theorem empty_append : ∅ ++ a = a := by
  apply ext <;> simp

@[simp] theorem append_empty : a ++ ∅ = a := by
  apply ext <;> simp

@[simp] theorem append_assoc : a ++ b ++ c = a ++ (b ++ c) := by
  apply ext <;> simp

@[simp] theorem ofComments_nil : ofComments [] = ∅ := rfl

@[simp] theorem ofComments_append :
    ofComments (cs ++ ds) = ofComments cs ++ ofComments ds := by
  apply ext <;> simp

end Content

/-- The comments fill the marks: each stands for itself, and any number of them may be lost in a
gap. -/
inductive FillsMarks : List (Option Comment) → List Comment → Prop
  | nil : FillsMarks [] []
  | comment {ms : List (Option Comment)} {cs : List Comment} (c : Comment) :
      FillsMarks ms cs → FillsMarks (some c :: ms) (c :: cs)
  | gap {ms : List (Option Comment)} {cs : List Comment} (lost : List Comment) :
      FillsMarks ms cs → FillsMarks (none :: ms) (lost ++ cs)

namespace FillsMarks
variable {ms ns : List (Option Comment)} {cs ds : List Comment}

theorem append (h : FillsMarks ms cs) (k : FillsMarks ns ds) : FillsMarks (ms ++ ns) (cs ++ ds) := by
  induction h with
  | nil => exact k
  | comment c _ ih => exact .comment c ih
  | gap lost _ ih =>
    rw [List.append_assoc]
    exact .gap lost ih

theorem of_comments (cs : List Comment) : FillsMarks (cs.map some) cs := by
  induction cs with
  | nil => exact .nil
  | cons c cs ih => exact .comment c ih

/-- Without a gap nothing is lost. -/
theorem eq_of_noGap (h : FillsMarks ms cs) (hg : ms.any Option.isNone = false) :
    ms.filterMap id = cs := by
  induction h with
  | nil => rfl
  | comment c _ ih => simpa using ih (by simpa using hg)
  | gap => simp at hg

end FillsMarks

/-- Values that hold ranges or comments. -/
class Holds (α : Type) where
  content : α → Content

export Holds (content)

/-- Values that hold neither. -/
class Bare (α : Type) [Holds α] : Prop where
  content_eq : ∀ v : α, content v = ∅

attribute [simp] Bare.content_eq

section Containers
variable {α β : Type} [Holds α] [Holds β]

instance : Holds (List α) := ⟨List.foldr (content · ++ ·) ∅⟩

instance : Holds (Option α) := ⟨fun o => o.elim ∅ content⟩

instance : Holds (α × β) := ⟨fun p => content p.1 ++ content p.2⟩

@[simp] theorem content_nil : content ([] : List α) = ∅ := rfl

@[simp] theorem content_cons (v : α) (vs : List α) : content (v :: vs) = content v ++ content vs :=
  rfl

@[simp] theorem content_append (us vs : List α) :
    content (us ++ vs) = content us ++ content vs := by
  induction us with
  | nil => simp
  | cons u us ih => simp [ih]

@[simp] theorem content_none : content (none : Option α) = ∅ := rfl

@[simp] theorem content_some (v : α) : content (some v) = content v := rfl

@[simp] theorem content_toList (o : Option α) : content o.toList = content o := by
  cases o <;> simp

@[simp] theorem content_pair (v : α) (w : β) : content (v, w) = content v ++ content w := rfl

instance [Bare α] : Bare (List α) where
  content_eq vs := by
    induction vs with
    | nil => rfl
    | cons v vs ih => rw [content_cons, Bare.content_eq, ih, Content.append_empty]

instance [Bare α] : Bare (Option α) where
  content_eq o := by cases o <;> simp

instance [Bare α] [Bare β] : Bare (α × β) where
  content_eq p := by rw [← Prod.eta p, content_pair, Bare.content_eq, Bare.content_eq,
    Content.append_empty]

end Containers

instance : Holds Unit := ⟨fun _ => ∅⟩
instance : Holds Bool := ⟨fun _ => ∅⟩
instance : Holds String := ⟨fun _ => ∅⟩
instance : Holds Token := ⟨fun _ => ∅⟩
instance : Holds EquateSense := ⟨fun _ => ∅⟩
instance : Holds JumpKind := ⟨fun _ => ∅⟩
instance : Holds Separator := ⟨fun _ => ∅⟩
instance : Holds ClauseLayout := ⟨fun _ => ∅⟩

instance : Bare Unit := ⟨fun _ => rfl⟩
instance : Bare Bool := ⟨fun _ => rfl⟩
instance : Bare String := ⟨fun _ => rfl⟩
instance : Bare Token := ⟨fun _ => rfl⟩
instance : Bare EquateSense := ⟨fun _ => rfl⟩
instance : Bare JumpKind := ⟨fun _ => rfl⟩
instance : Bare Separator := ⟨fun _ => rfl⟩
instance : Bare ClauseLayout := ⟨fun _ => rfl⟩

namespace Expr

mutual

def extent : Expr → Extent
  | .binary left _ right span => ⟨span, [left.extent, right.extent]⟩
  | .unary _ operand span => ⟨span, [operand.extent]⟩
  | .name _ span | .number _ span | .string _ _ span | .system _ span => ⟨span, []⟩
  | .call _ args span => ⟨span, extents args⟩
  | .dynamic _ attr value subValue span =>
    ⟨span, attr.extent :: (extents? value ++ extents? subValue)⟩
  | .substring _ start length span => ⟨span, start.extent :: extents? length⟩
  | .cursor column row span => ⟨span, column.extent :: extents? row⟩
  | .paren inner span => ⟨span, [inner.extent]⟩

def extents : List Expr → List Extent
  | [] => []
  | e :: es => e.extent :: extents es

def extents? : Option Expr → List Extent
  | none => []
  | some e => [e.extent]

end

@[simp] theorem extents_append (es fs : List Expr) :
    extents (es ++ fs) = extents es ++ extents fs := by
  induction es with
  | nil => rfl
  | cons e es ih => rw [List.cons_append, extents, extents, ih, List.cons_append]

@[simp] theorem extents_toList (e : Option Expr) : extents e.toList = extents? e := by
  cases e <;> rfl

instance : Holds Expr := ⟨fun e => ⟨[e.extent], []⟩⟩

theorem content_eq (e : Expr) : content e = ⟨[e.extent], []⟩ := rfl

/-- Expressions hold ranges and no comments. -/
theorem content_list (es : List Expr) : content es = ⟨extents es, []⟩ := by
  induction es with
  | nil => rfl
  | cons e es ih =>
    rw [content_cons, ih]
    rfl

end Expr

instance : Holds Label := ⟨fun l => .within l.span ∅⟩

instance : Holds Target := ⟨fun t => .within t.span ∅⟩

instance : Holds LoopGuard := ⟨fun g => content g.condition⟩

instance : Holds ArrayBounds := ⟨fun d => .within d.span (content d.rows ++ content d.columns)⟩

instance : Holds PrintEntry := ⟨fun i => content i.expr⟩

instance : Holds RecordPath := ⟨fun p => content p.file ++ (content p.key ++ content p.attr)⟩

@[simp] theorem content_guard (sense : GuardSense) (condition : Expr) :
    content (⟨sense, condition⟩ : LoopGuard) = content condition := rfl

@[simp] theorem content_entry (e : Expr) (s : Option Separator) :
    content (⟨e, s⟩ : PrintEntry) = content e := rfl

@[simp] theorem content_path (file : Option Expr) (key : Expr) (attr : Option Expr) :
    content (⟨file, key, attr⟩ : RecordPath) = content file ++ (content key ++ content attr) := rfl

mutual

def Item.content : Item → Content
  | .statement s => s.content
  | .label l => Holds.content l
  | .comment c => .ofComments [c]

def Item.contentAll : List Item → Content
  | [] => ∅
  | i :: is => i.content ++ Item.contentAll is

def Item.contentAll? : Option (List Item) → Content
  | none => ∅
  | some body => Item.contentAll body

def Statement.content : Statement → Content
  | ⟨form, span⟩ => .within span form.content

def Statement.content? : Option Statement → Content
  | none => ∅
  | some s => s.content

def Clause.content : Clause → Content
  | ⟨thenBody, elseBody, _⟩ => Item.contentAll? thenBody ++ Item.contentAll? elseBody

def Clause.content? : Option Clause → Content
  | none => ∅
  | some c => c.content

def CaseArm.content : CaseArm → Content
  | ⟨condition, body, span⟩ => .within span (Holds.content condition ++ Item.contentAll body)

def CaseArm.contentAll : List CaseArm → Content
  | [] => ∅
  | c :: cs => c.content ++ CaseArm.contentAll cs

def Form.content : Form → Content
  | .subroutine _ _ | .endUnit | .common _ _ | .switch _ _ | .bare _ => ∅
  | .dim arrays => Holds.content arrays
  | .equate _ _ value | .mat _ value | .operand _ value | .expression value => Holds.content value
  | .assignment target value => Holds.content target ++ Holds.content value
  | .ifThen condition clause => Holds.content condition ++ clause.content
  | .beginCase cases => if cases.isEmpty then .gap else CaseArm.contentAll cases
  | .forNext _ start limit step guard body _ =>
    Holds.content start ++ (Holds.content limit ++ (Holds.content step ++
      (Holds.content guard ++ Item.contentAll body)))
  | .loop before guard after =>
    Item.contentAll before ++ (Holds.content guard ++ Item.contentAll after)
  | .jump _ target => Holds.content target
  | .jumpOn selector _ targets => Holds.content selector ++ Holds.content targets
  | .returnTo target => Holds.content target
  | .print channel items => Holds.content channel ++ Holds.content items
  | .crt items => Holds.content items
  | .input _ length _ clause => Holds.content length ++ Clause.content? clause
  | .inputAt column row _ length _ clause =>
    Holds.content column ++ (Holds.content row ++ (Holds.content length ++ Clause.content? clause))
  | .inputTrap keys target => Holds.content keys ++ Holds.content target
  | .data values => Holds.content values
  | .openFile dictionary file _ onError clause =>
    Holds.content dictionary ++ (Holds.content file ++ (Statement.content? onError ++
      clause.content))
  | .read _ _ path onError locked clause | .matRead _ _ path onError locked clause =>
    Holds.content path ++ (Statement.content? onError ++ (Statement.content? locked ++
      Clause.content? clause))
  | .write _ value path onError =>
    Holds.content value ++ (Holds.content path ++ Statement.content? onError)
  | .delete path onError clause =>
    Holds.content path ++ (Statement.content? onError ++ Clause.content? clause)
  | .receive _ _ clause => Clause.content? clause
  | .writeTape value device => Holds.content value ++ Holds.content device
  | .select source _ => Holds.content source
  | .lock lock locked clause =>
    Holds.content lock ++ (Statement.content? locked ++ Clause.content? clause)
  | .clearFile file onError => Holds.content file ++ Statement.content? onError
  | .matWrite _ _ path onError => Holds.content path ++ Statement.content? onError
  | .locate value container _ clause =>
    Holds.content value ++ (Holds.content container ++ Clause.content? clause)
  | .execute command _ _ => Holds.content command
  | .call _ _ args => Holds.content args
  | .optional _ value => Holds.content value

end

instance : Holds Item := ⟨Item.content⟩
instance : Holds Statement := ⟨Statement.content⟩
instance : Holds Clause := ⟨Clause.content⟩
instance : Holds CaseArm := ⟨CaseArm.content⟩
instance : Holds Form := ⟨Form.content⟩

attribute [simp] Form.content

@[simp] theorem content_form (form : Form) : content form = form.content := rfl

@[simp] theorem Item.contentAll_eq (is : List Item) : Item.contentAll is = Holds.content is := by
  induction is with
  | nil => simp [Item.contentAll]
  | cons i is ih =>
    rw [Item.contentAll, ih]
    rfl

@[simp] theorem Item.contentAll?_eq (o : Option (List Item)) :
    Item.contentAll? o = Holds.content o := by
  cases o <;> simp [Item.contentAll?]

@[simp] theorem Statement.content?_eq (o : Option Statement) :
    Statement.content? o = Holds.content o := by
  cases o with
  | none => simp [Statement.content?]
  | some s =>
    rw [Statement.content?]
    rfl

@[simp] theorem Clause.content_eq (c : Clause) : c.content = Holds.content c := rfl

@[simp] theorem Clause.content?_eq (o : Option Clause) : Clause.content? o = Holds.content o := by
  cases o with
  | none => simp [Clause.content?]
  | some c =>
    rw [Clause.content?]
    rfl

@[simp] theorem CaseArm.contentAll_eq (cs : List CaseArm) :
    CaseArm.contentAll cs = Holds.content cs := by
  induction cs with
  | nil => simp [CaseArm.contentAll]
  | cons c cs ih =>
    rw [CaseArm.contentAll, ih]
    rfl

@[simp] theorem content_statement (s : Statement) : content (Item.statement s) = content s := by
  change Item.content _ = _
  rw [Item.content]
  rfl

@[simp] theorem content_label (l : Label) : content (Item.label l) = content l := by
  change Item.content _ = _
  rw [Item.content]

@[simp] theorem content_comments (cs : List Comment) :
    content (cs.map Item.comment) = .ofComments cs := by
  induction cs with
  | nil => rfl
  | cons c cs ih =>
    have hc : content (Item.comment c) = .ofComments [c] := by
      change Item.content _ = _
      rw [Item.content]
    rw [List.map_cons, content_cons, ih, hc, ← Content.ofComments_append, List.singleton_append]

@[simp] theorem content_of_form (form : Form) (span : Span) :
    content (⟨form, span⟩ : Statement) = .within span (content form) := by
  change Statement.content _ = _
  rw [Statement.content]
  rfl

@[simp] theorem content_clause (thenBody elseBody : Option (List Item)) (layout : ClauseLayout) :
    content (⟨thenBody, elseBody, layout⟩ : Clause) = content thenBody ++ content elseBody := by
  change Clause.content _ = _
  rw [Clause.content]
  simp

@[simp] theorem content_arm (condition : Expr) (body : List Item) (span : Span) :
    content (⟨condition, body, span⟩ : CaseArm) =
      .within span (content condition ++ content body) := by
  change CaseArm.content _ = _
  rw [CaseArm.content]
  simp

/-- The extents at the top of a program. -/
def Program.extents (p : Program) : List Extent := (content p.items).extents

/-- The comments of a program in reading order, at any depth, and the gaps between them. -/
def Program.marks (p : Program) : List (Option Comment) := (content p.items).marks

/-- The comments of a program in reading order, at any depth. -/
def Program.comments (p : Program) : List Comment := (content p.items).comments

/-- Some `BEGIN CASE` of the program has no clause. -/
def Program.caseless (p : Program) : Bool := (content p.items).caseless

end PickSyntax
