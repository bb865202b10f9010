import PickSyntax.Proofs.Rendering.Assignment

/-!
# Structured programs and the text that writes them

A plan is a statement of a structured program together with the choices its text leaves open:
which words write an expression, and how an `IF` passes from one branch to the other. Plans
nest to any depth, and any body may be empty.

The text of a plan has a line for each header, each simple statement and each terminator, with
nothing to tell how deep a line stands. `Plan.form` is the tree that the text is meant to
have; the parser is not mentioned here.
-/
namespace PickSyntax

namespace Word
variable {u v w : Word}

/-- The word at the beginning of a line. -/
def leading (w : Word) : Word := { w with lineStart := true }

@[simp] theorem leading_kind (w : Word) : w.leading.kind = w.kind := rfl
@[simp] theorem leading_text (w : Word) : w.leading.text = w.text := rfl
@[simp] theorem leading_spaced (w : Word) : w.leading.spaced = w.spaced := rfl
@[simp] theorem leading_lineStart (w : Word) : w.leading.lineStart = true := rfl

/-- The word may be written behind any other. -/
def Free (w : Word) : Prop := w.spaced = true ∧ w.kind ≠ .symbol .star

theorem Free.follows (h : v.Free) (w : Word) : w.Follows v :=
  ⟨Apart.blank h.1, fun _ => h.1, fun hk => absurd hk h.2⟩

theorem Follows.of_kind (h : w.Follows v) (hk : u.kind = w.kind) : u.Follows v where
  apart := by simpa [hk] using h.apart
  line := h.line
  star := by simpa [hk] using h.star

end Word

/-- The words as a line of their own. -/
def line : List Word → List Word
  | [] => []
  | w :: ws => w.leading :: ws

@[simp] theorem line_cons (w : Word) (ws : List Word) : line (w :: ws) = w.leading :: ws := rfl

/-- Words that may be written behind any others. -/
structure Portable (ws : List Word) : Prop where
  legible : ∀ w ∈ ws, w.Legible
  follows : List.IsChain Word.Follows ws
  free : ∀ w ∈ ws.head?, w.Free
  parted : ∀ w ∈ ws, w.lineStart = true → w.spaced = true

namespace Portable
variable {w : Word} {ws vs : List Word}

theorem nil : Portable [] := ⟨by simp, .nil, by simp, by simp⟩

theorem single (hl : w.Legible) (hf : w.Free) : Portable [w] where
  legible := by simpa using hl
  follows := .singleton w
  free := by simpa using hf
  parted := by simpa using fun _ => hf.1

theorem append (h : Portable ws) (k : Portable vs) : Portable (ws ++ vs) where
  legible := List.forall_mem_append.mpr ⟨h.legible, k.legible⟩
  follows := h.follows.append k.follows fun w _ v hv => (k.free v hv).follows w
  free := by
    cases ws with
    | nil => exact k.free
    | cons => exact h.free
  parted := List.forall_mem_append.mpr ⟨h.parted, k.parted⟩

theorem cons (hl : w.Legible) (hf : w.Free) (h : Portable ws) : Portable (w :: ws) :=
  (single hl hf).append h

/-- Words remain so on a line of their own. -/
theorem asLine (h : Portable ws) : Portable (line ws) := by
  cases ws with
  | nil => exact nil
  | cons w ws =>
    have hfree : w.leading.Free := h.free w rfl
    refine ⟨?_, ?_, fun v hv => ?_, ?_⟩
    · exact List.forall_mem_cons.mpr ⟨h.legible w (by simp), fun v hv => h.legible v (by simp [hv])⟩
    · have hfollows := List.isChain_cons.mp h.follows
      exact .cons hfollows.2 fun v hv => (hfollows.1 v hv).of_kind rfl
    · cases hv
      exact hfree
    · exact List.forall_mem_cons.mpr ⟨fun _ => hfree.1, fun v hv => h.parted v (by simp [hv])⟩

end Portable

theorem Portable.keyword {k : Keyword} {ws : List Word} (hk : k ≠ .REM) (h : Portable ws) :
    Portable (.ofKeyword k :: ws) :=
  .cons (Word.inline_ofKeyword hk).legible ⟨rfl, by simp [Word.ofKeyword]⟩ h

/-- A keyword on a line of its own. -/
theorem Portable.mark {k : Keyword} (hk : k ≠ .REM) : Portable (line [.ofKeyword k]) :=
  (nil.keyword hk).asLine

theorem Portable.equals {ws : List Word} (h : Portable ws) :
    Portable (.ofSymbol .equals true :: ws) :=
  .cons (Word.inline_ofSymbol .equals true).legible ⟨rfl, by simp [Word.ofSymbol]⟩ h

/-- An expression can stand behind any word: it begins with no star. -/
theorem Expr.InWords.portable {e : Expr} {ws : List Word} (h : e.InWords ws) : Portable ws where
  legible := fun w hw => (h.2.1 w hw).legible
  follows := (List.isChain_cons.mp (h.follows (w := .ofKeyword .NULL) rfl)).2
  free := by
    obtain ⟨w, vs, rfl, hw⟩ := h.1.head (by simp)
    refine fun v hv => ⟨h.2.2 v hv, ?_⟩
    cases hv
    intro hk
    rw [hk] at hw
    cases hw
  parted := fun w hw hl => by
    rw [(h.2.1 w hw).lineStart] at hl
    cases hl

theorem Portable.fluent {ws : List Word} (h : Portable ws)
    (hl : ∀ w ∈ ws.head?, w.lineStart = true) : Fluent (atStart ws) := by
  cases ws with
  | nil => exact ⟨by simp [atStart], .nil, by simp [atStart]⟩
  | cons w ws =>
    have hfollows := List.isChain_cons.mp h.follows
    refine ⟨?_, ?_, ?_⟩
    · exact List.forall_mem_cons.mpr ⟨h.legible w (by simp), fun v hv => h.legible v (by simp [hv])⟩
    · exact .cons hfollows.2 fun v hv => (hfollows.1 v hv).of_kind rfl
    · rintro _ ⟨⟩
      exact ⟨hl w rfl, rfl, (h.free w rfl).2⟩

/-- The word of a token, where the beginning of the text parts like that of any other line. -/
def Token.laid (t : Token) : Word := { t.word with spaced := t.spaced || t.lineStart }

@[simp] theorem Token.laid_kind (t : Token) : t.laid.kind = t.kind := rfl
@[simp] theorem Token.laid_text (t : Token) : t.laid.text = t.text := rfl
@[simp] theorem Token.laid_lineStart (t : Token) : t.laid.lineStart = t.lineStart := rfl

theorem Token.laid_eq_word {t : Token} (h : t.lineStart = true → t.spaced = true) :
    t.laid = t.word := by
  cases hl : t.lineStart with
  | false => simp [laid, word, hl]
  | true => simp [laid, word, hl, h hl]

/-- Within a line nothing is changed. -/
theorem map_word_of_laid {ts : List Token} {ws : List Word} (h : ts.map Token.laid = ws)
    (hl : ∀ w ∈ ws, w.lineStart = false) : ts.map Token.word = ws := by
  subst h
  refine List.map_congr_left fun t ht => (Token.laid_eq_word fun hline => ?_).symm
  have hf : t.lineStart = false := hl t.laid (List.mem_map_of_mem ht)
  rw [hf] at hline
  cases hline

theorem map_laid_atStart {ts : List Token} {ws : List Word} (hw : Portable ws)
    (hl : ∀ w ∈ ws.head?, w.lineStart = true) (h : ts.map Token.word = atStart ws) :
    ts.map Token.laid = ws := by
  cases ws with
  | nil => simpa [atStart] using h
  | cons w ws =>
    obtain ⟨t, us, rfl, ht, rfl⟩ := List.map_eq_cons_iff.mp h
    have hus : us.map Token.laid = us.map Token.word := by
      refine List.map_congr_left fun u hu => Token.laid_eq_word ?_
      exact hw.parted u.word (List.mem_cons_of_mem _ (List.mem_map_of_mem hu))
    have hline : t.word.lineStart = true := by rw [ht]; exact hl w rfl
    have hspaced : w.spaced = true := (hw.free w rfl).1
    have hlaid : t.laid = { t.word with spaced := true } := by
      simp [Token.laid, show t.lineStart = true from hline]
    rw [List.map_cons, hus, hlaid, ht]
    simp [← hspaced]

/-- A name that can be written: an identifier, or a keyword that may stand for one. -/
structure Name where
  kind : TokenKind
  text : String
  isName : kind.isName = true
  admits : kind.Admits text.toList

/-- An expression and words that write it. -/
structure Phrase where
  expr : Expr
  words : List Word
  inWords : expr.InWords words
  ranked : expr.Ranked

namespace Phrase

def number (text : String) (h : TokenKind.Admits .number text.toList) : Phrase where
  expr := .number text (.point 0)
  words := [⟨.number, text, true, false⟩]
  inWords := Expr.inWords_single text h (.number rfl)
  ranked := by simp [Expr.Ranked, Expr.nodes, Expr.Fits]

end Phrase

/-- A condition with the word before it. -/
structure Guard where
  sense : GuardSense
  condition : Phrase

mutual

inductive Plan where
  | null
  | assign (target : Name) (value : Phrase)
  | ifThen (condition : Phrase) (body : List Plan)
  /-- With `ended` the first branch is closed by an `END` of its own. -/
  | ifElse (condition : Phrase) (body : List Plan) (ended : Bool) (other : List Plan)
  | forNext (counter : Name) (start limit : Phrase) (step : Option Phrase)
      (guard : Option Guard) (body : List Plan) (next : Option Name)
  | loop (body : List Plan)
  | loopGuard (before : List Plan) (guard : Guard) (after : List Plan)
  | beginCase (arms : List PlanArm)

structure PlanArm where
  condition : Phrase
  body : List Plan

end

def GuardSense.keyword : GuardSense → Keyword
  | .whileTrue => .WHILE
  | .untilTrue => .UNTIL

def Name.word (n : Name) : Word := ⟨n.kind, n.text, true, false⟩

def Guard.words (g : Guard) : List Word := .ofKeyword g.sense.keyword :: g.condition.words

open Word in
mutual

def Plan.words : Plan → List Word
  | .null => line [ofKeyword .NULL]
  | .assign target value => line (target.word :: ofSymbol .equals true :: value.words)
  | .ifThen condition body =>
    line (ofKeyword .IF :: (condition.words ++ [ofKeyword .THEN])) ++
      (wordsOf body ++ line [ofKeyword .END])
  | .ifElse condition body ended other =>
    line (ofKeyword .IF :: (condition.words ++ [ofKeyword .THEN])) ++
      (wordsOf body ++ (line ((if ended then [ofKeyword .END] else []) ++ [ofKeyword .ELSE]) ++
        (wordsOf other ++ line [ofKeyword .END])))
  | .forNext counter start limit step guard body next =>
    line (ofKeyword .FOR :: counter.word :: ofSymbol .equals true ::
        (start.words ++ ofKeyword .TO :: (limit.words ++
          (step.elim [] (fun p => ofKeyword .STEP :: p.words) ++ guard.elim [] Guard.words)))) ++
      (wordsOf body ++ line (ofKeyword .NEXT :: next.toList.map Name.word))
  | .loop body => line [ofKeyword .LOOP] ++ (wordsOf body ++ line [ofKeyword .REPEAT])
  | .loopGuard before guard after =>
    line [ofKeyword .LOOP] ++ (wordsOf before ++
      (line (guard.words ++ [ofKeyword .DO]) ++ (wordsOf after ++ line [ofKeyword .REPEAT])))
  | .beginCase arms =>
    line [ofKeyword .BEGIN, ofKeyword .CASE] ++
      (wordsOfArms arms ++ line [ofKeyword .END, ofKeyword .CASE])

def PlanArm.words : PlanArm → List Word
  | ⟨condition, body⟩ => line (ofKeyword .CASE :: condition.words) ++ wordsOf body

def wordsOf : List Plan → List Word
  | [] => []
  | p :: ps => p.words ++ wordsOf ps

def wordsOfArms : List PlanArm → List Word
  | [] => []
  | a :: as => a.words ++ wordsOfArms as

end

attribute [grind =] Plan.words PlanArm.words wordsOf wordsOfArms

/-- The text of a program, a line at a time. -/
def sourceOf (ps : List Plan) : String := String.ofList (write (wordsOf ps))

theorem Name.portable (n : Name) : Portable [n.word] := by
  refine .single n.admits ⟨rfl, fun hk => ?_⟩
  have hname := n.isName
  rw [show n.kind = _ from hk] at hname
  cases hname

theorem Phrase.portable (p : Phrase) : Portable p.words := p.inWords.portable

theorem Guard.portable (g : Guard) : Portable g.words := by
  refine .keyword ?_ g.condition.portable
  cases g.sense <;> simp [GuardSense.keyword]

/-- The header of an `IF`. -/
theorem Phrase.portable_header (p : Phrase) :
    Portable (line (.ofKeyword .IF :: (p.words ++ [.ofKeyword .THEN]))) :=
  ((p.portable.append (.keyword (by simp) .nil)).keyword (by simp)).asLine

mutual

theorem Plan.portable : ∀ p : Plan, Portable p.words
  | .null => .mark (by simp)
  | .assign target value => (target.portable.append value.portable.equals).asLine
  | .ifThen condition body =>
    condition.portable_header.append ((portable_wordsOf body).append (.mark (by simp)))
  | .ifElse condition body ended other => by
    refine condition.portable_header.append ((portable_wordsOf body).append
      (.append (.asLine ?_) ((portable_wordsOf other).append (.mark (by simp)))))
    cases ended
    · exact .keyword (by simp) .nil
    · exact .keyword (by simp) (.keyword (by simp) .nil)
  | .forNext counter start limit step guard body next => by
    have hguard : Portable (guard.elim [] Guard.words) := by
      cases guard with
      | none => exact .nil
      | some g => exact g.portable
    have hstep : Portable (step.elim [] fun p => .ofKeyword .STEP :: p.words) := by
      cases step with
      | none => exact .nil
      | some p => exact .keyword (by simp) p.portable
    have hnext : Portable (next.toList.map Name.word) := by
      cases next with
      | none => exact .nil
      | some n => exact n.portable
    have hlimit : Portable (.ofKeyword .TO :: _) :=
      .keyword (by simp) (limit.portable.append (hstep.append hguard))
    have hfor : Portable (.ofKeyword .FOR :: _) :=
      .keyword (by simp) (counter.portable.append (start.portable.append hlimit).equals)
    exact hfor.asLine.append ((portable_wordsOf body).append (hnext.keyword (by simp)).asLine)
  | .loop body =>
    (Portable.mark (by simp)).append ((portable_wordsOf body).append (.mark (by simp)))
  | .loopGuard before guard after =>
    (Portable.mark (by simp)).append ((portable_wordsOf before).append
      ((guard.portable.append (.keyword (by simp) .nil)).asLine.append
        ((portable_wordsOf after).append (.mark (by simp)))))
  | .beginCase arms =>
    (Portable.keyword (by simp) (.keyword (by simp) .nil)).asLine.append
      ((portable_wordsOfArms arms).append
        (Portable.keyword (by simp) (.keyword (by simp) .nil)).asLine)

theorem PlanArm.portable : ∀ a : PlanArm, Portable a.words
  | ⟨condition, body⟩ =>
    (condition.portable.keyword (by simp)).asLine.append (portable_wordsOf body)

theorem portable_wordsOf : ∀ ps : List Plan, Portable (wordsOf ps)
  | [] => .nil
  | p :: ps => p.portable.append (portable_wordsOf ps)

theorem portable_wordsOfArms : ∀ as : List PlanArm, Portable (wordsOfArms as)
  | [] => .nil
  | a :: as => a.portable.append (portable_wordsOfArms as)

end

def Guard.plain (g : Guard) : LoopGuard := ⟨g.sense, g.condition.expr.plain⟩

mutual

/-- What the text of the plan says, up to byte ranges. -/
def Plan.form : Plan → Form
  | .null => .bare .null
  | .assign target value => .assignment (.name target.text (.point 0)) value.expr.plain
  | .ifThen condition body => .ifThen condition.expr.plain ⟨some (itemsOf body), none, .block⟩
  | .ifElse condition body _ other =>
    .ifThen condition.expr.plain ⟨some (itemsOf body), some (itemsOf other), .block⟩
  | .forNext counter start limit step guard body next =>
    .forNext counter.text start.expr.plain limit.expr.plain (step.map fun p => p.expr.plain)
      (guard.map Guard.plain) (itemsOf body) (next.map Name.text)
  | .loop body => .loop (itemsOf body) none []
  | .loopGuard before guard after => .loop (itemsOf before) (some guard.plain) (itemsOf after)
  | .beginCase arms => .beginCase (casesOf arms)

def PlanArm.case : PlanArm → CaseArm
  | ⟨condition, body⟩ => ⟨condition.expr.plain, itemsOf body, .point 0⟩

def itemsOf : List Plan → List Item
  | [] => []
  | p :: ps => .statement ⟨p.form, .point 0⟩ :: itemsOf ps

def casesOf : List PlanArm → List CaseArm
  | [] => []
  | a :: as => a.case :: casesOf as

end

attribute [grind =] Plan.form PlanArm.case itemsOf casesOf

end PickSyntax
