import PickSyntax.Grammar.Expression
import PickSyntax.Proofs.Expression.Beginning
import PickSyntax.Proofs.Expression.Ranked
import PickSyntax.Proofs.Rendering.Words

/-!
# Expressions in words

`Writes ws es` says that the words `ws` write the expressions `es` with a comma between each
two of them. The layout is fixed only where it decides how the words read back: blanks stand
around a binary operator and after a sign, and none before a bracket that belongs to a name.
Every binary operator may take any of its spellings, except that a lone `>` and the pair `>=`
are left out, since these close a reference.

An expression is canonical when its leaves are spelled as the lexer spells them and its
operands bind tightly enough (`Canonical`). Such a tree can be written (`Canonical.exists_words`),
and what writes a tree can be read as text (`Writes.chain`).
-/
namespace PickSyntax

open PickSyntax.Grammar

/-- The ways to write a binary operator that read the same inside a reference and outside. -/
inductive BinaryOp.Written (op : BinaryOp) : List Word → Prop
  | word {w : Word} {k : Keyword} : w.kind = .keyword k → binaryOfKeyword? k = some op →
      w.spaced = true → Written op [w]
  | mark {w : Word} {y : Symbol} : w.kind = .symbol y →
      binaryOfSymbol? true y none = some (op, 1) → w.spaced = true → Written op [w]
  | marks {w v : Word} {y z : Symbol} : w.kind = .symbol y → v.kind = .symbol z →
      binaryOfSymbol? true y (some z) = some (op, 2) → w.spaced = true → v.spaced = false →
      Written op [w, v]

/-- The words write the expressions, with commas between them. -/
inductive Writes : List Word → List Expr → Prop
  | nothing : Writes [] []
  | comma {ws vs : List Word} {c : Word} {es : List Expr} {e : Expr} : Writes ws es → es ≠ [] →
      c.kind = .symbol .comma → Writes vs [e] → Writes (ws ++ c :: vs) (es ++ [e])
  | binary {ws us vs : List Word} {left right : Expr} {op : BinaryOp} {span : Span} :
      Writes ws [left] → op.Written us → Writes vs [right] → (∀ v ∈ vs.head?, v.spaced = true) →
      Writes (ws ++ (us ++ vs)) [.binary left op right span]
  | unary {w : Word} {vs : List Word} {operand : Expr} {op : UnaryOp} {span : Span} :
      unaryOf? w.kind = some op → Writes vs [operand] → (∀ v ∈ vs.head?, v.spaced = true) →
      Writes (w :: vs) [.unary op operand span]
  | name {w : Word} {span : Span} : w.kind.isName = true → Writes [w] [.name w.text span]
  | number {w : Word} {span : Span} : w.kind = .number → Writes [w] [.number w.text span]
  | string {w : Word} {q : Quote} {value : String} {span : Span} : w.kind = .string q →
      w.text.toList = q.char :: (value.toList ++ [q.char]) → Writes [w] [.string value q span]
  | system {w : Word} {name : String} {span : Span} : w.kind = .systemName →
      w.text.toList = '@' :: name.toList → Writes [w] [.system name span]
  | call {w opening closing : Word} {ws : List Word} {args : List Expr} {span : Span} :
      w.kind.isName = true → opening.kind = .symbol .leftParen → opening.spaced = false →
      Writes ws args → closing.kind = .symbol .rightParen →
      Writes (w :: opening :: (ws ++ [closing])) [.call w.text args span]
  | dynamic {w opening closing : Word} {ws : List Word} {attr : Expr}
      {value subValue : Option Expr} {span : Span} :
      w.kind.isName = true → opening.kind = .symbol .less → opening.spaced = false →
      Writes ws (attr :: (value.toList ++ subValue.toList)) → (value = none → subValue = none) →
      closing.kind = .symbol .greater →
      Writes (w :: opening :: (ws ++ [closing])) [.dynamic w.text attr value subValue span]
  | substring {w opening closing : Word} {ws : List Word} {start : Expr} {length : Option Expr}
      {span : Span} :
      w.kind.isName = true → opening.kind = .symbol .leftBracket → opening.spaced = false →
      Writes ws (start :: length.toList) → closing.kind = .symbol .rightBracket →
      Writes (w :: opening :: (ws ++ [closing])) [.substring w.text start length span]
  | cursor {w opening closing : Word} {ws : List Word} {column : Expr} {row : Option Expr}
      {span : Span} :
      w.kind = .symbol .atSign → opening.kind = .symbol .leftParen →
      Writes ws (column :: row.toList) → closing.kind = .symbol .rightParen →
      Writes (w :: opening :: (ws ++ [closing])) [.cursor column row span]
  | paren {opening closing : Word} {ws : List Word} {inner : Expr} {span : Span} :
      opening.kind = .symbol .leftParen → Writes ws [inner] →
      closing.kind = .symbol .rightParen →
      Writes (opening :: (ws ++ [closing])) [.paren inner span]

/-- A word that can be read back and stands within its line. -/
structure Word.Inline (w : Word) : Prop where
  legible : w.Legible
  lineStart : w.lineStart = false

/-- The expression in words, behind a word that is parted from it by a blank. -/
def Expr.InWords (e : Expr) (ws : List Word) : Prop :=
  Writes ws [e] ∧ (∀ w ∈ ws, w.Inline) ∧ ∀ w ∈ ws.head?, w.spaced = true

/-- The text writes the expression. -/
def Expr.Rendering (e : Expr) (text : String) : Prop :=
  ∃ ws, e.InWords ws ∧ text = String.ofList (write ws)

/-- What is written begins with a word that can begin an expression. -/
theorem Writes.head {ws : List Word} {es : List Expr} (h : Writes ws es) (he : es ≠ []) :
    ∃ w vs, ws = w :: vs ∧ w.kind.beginsExpression = true := by
  induction h with
  | nothing => exact absurd rfl he
  | comma _ hne _ _ ih _ =>
    obtain ⟨w, vs, rfl, hw⟩ := ih hne
    exact ⟨w, _, rfl, hw⟩
  | binary _ _ _ _ ih _ =>
    obtain ⟨w, vs, rfl, hw⟩ := ih (by simp)
    exact ⟨w, _, rfl, hw⟩
  | unary hw => exact ⟨_, _, rfl, unaryOf?_beginsExpression hw⟩
  | name hw | call hw | dynamic hw | substring hw => exact ⟨_, _, rfl, isName_beginsExpression hw⟩
  | number hw | string hw | system hw | cursor hw | paren hw => exact ⟨_, _, rfl, by rw [hw]; rfl⟩

/-- No words write no expressions. -/
theorem Writes.nil {ws : List Word} (h : Writes ws []) : ws = [] := by
  generalize hes : ([] : List Expr) = es at h
  cases h with
  | nothing => rfl
  | comma => simp at hes
  | _ => cases hes

/-- No statement list opens at a kind that an expression can begin with. -/
theorem opens_of_beginsExpression {k : TokenKind} (h : k.beginsExpression = true) :
    k.opensStatementList = false := by
  cases k with
  | keyword k => cases k <;> first | rfl | cases h
  | symbol y => cases y <;> first | rfl | cases h
  | _ => rfl

theorem BinaryOp.Written.opens {op : BinaryOp} {us : List Word} (h : op.Written us) :
    ∀ w ∈ us, w.kind.opensStatementList = false := by
  have symbol {y : Symbol} (hy : y ≠ .semicolon) : (TokenKind.symbol y).opensStatementList = false := by
    simpa [TokenKind.opensStatementList] using hy
  cases h with
  | word hk hop =>
    unfold binaryOfKeyword? at hop
    split at hop <;> simp_all [TokenKind.opensStatementList, Keyword.opensStatementList]
  | @mark w y hy hop =>
    have hne : y ≠ .semicolon := by
      rintro rfl
      cases hop
    simp [hy, symbol hne]
  | @marks w v y z hy hz hop =>
    have hne : y ≠ .semicolon := by
      rintro rfl
      cases z <;> cases hop
    have hne' : z ≠ .semicolon := by
      rintro rfl
      cases y <;> cases hop
    simp [hy, hz, symbol hne, symbol hne']

/-- No statement list opens inside an expression. -/
theorem Writes.opens {ws : List Word} {es : List Expr} (h : Writes ws es) :
    ∀ w ∈ ws, w.kind.opensStatementList = false := by
  induction h with
  | nothing => simp
  | comma _ _ hc _ ih ih' =>
    simp only [List.forall_mem_append, List.forall_mem_cons, hc]
    exact ⟨ih, rfl, ih'⟩
  | binary _ hop _ _ ih ih' =>
    simp only [List.forall_mem_append]
    exact ⟨ih, hop.opens, ih'⟩
  | unary hw _ _ ih =>
    exact List.forall_mem_cons.mpr ⟨opens_of_beginsExpression (unaryOf?_beginsExpression hw), ih⟩
  | name hw =>
    simpa using opens_of_beginsExpression (isName_beginsExpression hw)
  | number hw | string hw | system hw => simp [hw, TokenKind.opensStatementList]
  | call hw ho _ _ hc ih | dynamic hw ho _ _ _ hc ih | substring hw ho _ _ hc ih =>
    simp only [List.forall_mem_append, List.forall_mem_cons, ho, hc]
    exact ⟨opens_of_beginsExpression (isName_beginsExpression hw), rfl, ih, rfl, by simp⟩
  | cursor hw ho _ hc ih =>
    simp only [List.forall_mem_append, List.forall_mem_cons, hw, ho, hc]
    exact ⟨rfl, rfl, ih, rfl, by simp⟩
  | paren ho _ hc ih =>
    simp only [List.forall_mem_append, List.forall_mem_cons, ho, hc]
    exact ⟨rfl, ih, rfl, by simp⟩

namespace Word

/-- Of two neighbours without a blank between them, one is a symbol that stands by itself. -/
def Apart (w v : Word) : Prop :=
  v.spaced = false → (∃ y, v.kind = .symbol y) ∨ ∃ y, w.kind = .symbol y ∧ y ≠ .atSign

variable {w v : Word} {y : Symbol}

theorem Apart.before (h : v.kind = .symbol y) : w.Apart v := fun _ => .inl ⟨y, h⟩

theorem Apart.after (h : w.kind = .symbol y) (hy : y ≠ .atSign) : w.Apart v :=
  fun _ => .inr ⟨y, h, hy⟩

theorem Apart.blank (h : v.spaced = true) : w.Apart v := by
  intro hf
  rw [h] at hf
  cases hf

/-- Words between brackets are apart from these. -/
theorem apart_bracketed {opening closing : Word} {ws : List Word} {z : Symbol}
    (ho : opening.kind = .symbol y) (hy : y ≠ .atSign) (h : List.IsChain Apart ws)
    (hc : closing.kind = .symbol z) : List.IsChain Apart (opening :: (ws ++ [closing])) := by
  refine List.IsChain.cons (h.append (by simp) fun _ _ _ hv => ?_) fun _ _ => .after ho hy
  cases hv
  exact .before hc

end Word

theorem BinaryOp.Written.apart {op : BinaryOp} {us : List Word} (h : op.Written us) :
    List.IsChain Word.Apart us ∧ ∀ w ∈ us.head?, w.spaced = true := by
  cases h with
  | word _ _ hs | mark _ _ hs => simpa using hs
  | marks _ hz _ hs => exact ⟨by simpa using .before hz, by simpa using hs⟩

theorem Writes.apart {ws : List Word} {es : List Expr} (h : Writes ws es) :
    List.IsChain Word.Apart ws := by
  induction h with
  | nothing => exact .nil
  | comma _ _ hc _ ih ih' =>
    refine ih.append (ih'.cons fun _ _ => .after hc (by simp)) fun _ _ _ hv => ?_
    cases hv
    exact .before hc
  | binary _ hop hright hs ih ih' =>
    refine ih.append (hop.apart.1.append ih' fun _ _ v hv => .blank (hs v hv)) fun _ _ v hv => ?_
    refine .blank (hop.apart.2 v ?_)
    cases hop <;> exact hv
  | unary _ _ hs ih => exact ih.cons fun v hv => .blank (hs v hv)
  | name | number | string | system => exact .singleton _
  | call _ ho _ _ hc ih | dynamic _ ho _ _ _ hc ih | substring _ ho _ _ hc ih | cursor _ ho _ hc ih =>
    exact .cons_cons (.before ho) (Word.apart_bracketed ho (by simp) ih hc)
  | paren ho _ hc ih => exact Word.apart_bracketed ho (by simp) ih hc

/-- An expression can be written behind a word after which no statement begins. -/
theorem Expr.InWords.follows {e : Expr} {ws : List Word} {w : Word} (h : e.InWords ws)
    (hw : w.kind.opensStatementList = false) : List.IsChain Word.Follows (w :: ws) := by
  have hopens : ∀ v ∈ w :: ws, v.kind.opensStatementList = false := by
    simpa [hw] using h.1.opens
  have hline : ∀ v ∈ ws, v.lineStart = false := fun v hv => (h.2.1 v hv).lineStart
  refine (h.1.apart.cons fun v hv => .blank (h.2.2 v hv)).imp_of_mem_tail_imp ?_
  intro u v hu hv huv
  have hv := hline v hv
  exact ⟨huv, by simp [hv], fun _ => ⟨hopens u hu, hv⟩⟩

theorem Keyword.spelling_wordChars : ∀ k ∈ Keyword.all,
    k.spelling.toList.head?.any Char.isAlpha = true ∧ k.spelling.toList.all isWordChar = true := by
  decide +kernel

/-- The upper-case spelling of a keyword reads as the keyword. -/
theorem Keyword.admits {k : Keyword} (h : k ≠ .REM) :
    TokenKind.Admits (.keyword k) k.spelling.toList := by
  obtain ⟨hhead, hall⟩ := spelling_wordChars k (mem_all k)
  have hword := ofWord?_spelling k
  cases hs : k.spelling.toList with
  | nil =>
    rw [hs] at hhead
    cases hhead
  | cons c cs =>
    rw [hs] at hhead hall hword
    rw [List.all_cons, Bool.and_eq_true, List.all_eq_true] at hall
    exact .keyword (by simpa using hhead) hall.2 hword h

namespace Word

/-- A keyword behind a blank. -/
def ofKeyword (k : Keyword) : Word := ⟨.keyword k, k.spelling, true, false⟩

/-- A symbol, with or without a blank before it. -/
def ofSymbol (y : Symbol) (spaced : Bool) : Word := ⟨.symbol y, String.ofList [y.char], spaced, false⟩

theorem inline_ofKeyword {k : Keyword} (h : k ≠ .REM) : (ofKeyword k).Inline :=
  ⟨k.admits h, rfl⟩

theorem inline_ofSymbol (y : Symbol) (spaced : Bool) : (ofSymbol y spaced).Inline := by
  refine ⟨?_, rfl⟩
  rw [Legible, ofSymbol, String.toList_ofList]
  exact .symbol y

end Word

theorem BinaryOp.exists_written (op : BinaryOp) :
    ∃ us, op.Written us ∧ ∀ w ∈ us, w.Inline := by
  have word (k : Keyword) (hk : binaryOfKeyword? k = some op) (hrem : k ≠ .REM) :
      ∃ us, op.Written us ∧ ∀ w ∈ us, w.Inline :=
    ⟨[.ofKeyword k], .word rfl hk rfl, by simpa using Word.inline_ofKeyword hrem⟩
  have mark (y : Symbol) (hy : binaryOfSymbol? true y none = some (op, 1)) :
      ∃ us, op.Written us ∧ ∀ w ∈ us, w.Inline :=
    ⟨[.ofSymbol y true], .mark rfl hy rfl, by simpa using Word.inline_ofSymbol y true⟩
  cases op with
  | or => exact word .OR rfl (by decide)
  | and => exact word .AND rfl (by decide)
  | eq => exact mark .equals rfl
  | ne => exact mark .hash rfl
  | lt => exact mark .less rfl
  | gt => exact word .GT rfl (by decide)
  | le => exact word .LE rfl (by decide)
  | ge => exact word .GE rfl (by decide)
  | matching => exact word .MATCHES rfl (by decide)
  | add => exact mark .plus rfl
  | sub => exact mark .minus rfl
  | concat => exact mark .colon rfl
  | mul => exact mark .star rfl
  | div => exact mark .slash rfl
  | pow => exact mark .caret rfl

theorem UnaryOp.exists_written (op : UnaryOp) :
    ∃ w : Word, unaryOf? w.kind = some op ∧ w.Inline ∧ w.spaced = true := by
  cases op with
  | neg => exact ⟨.ofSymbol .minus true, rfl, Word.inline_ofSymbol _ _, rfl⟩
  | plus => exact ⟨.ofSymbol .plus true, rfl, Word.inline_ofSymbol _ _, rfl⟩
  | not => exact ⟨.ofKeyword .NOT, rfl, Word.inline_ofKeyword (by decide), rfl⟩

/-- The text is a word that can stand for a name: no keyword, or a soft one. -/
def IsName (text : String) : Prop := ∃ k : TokenKind, k.isName = true ∧ k.Admits text.toList

namespace Expr

/-- The texts in this node are spelled as the lexer spells them, and a sub-value comes only with
a value. -/
def Spellable : Expr → Prop
  | .name text _ | .call text _ _ | .substring text _ _ _ => IsName text
  | .dynamic text _ value subValue _ => IsName text ∧ (value = none → subValue = none)
  | .number text _ => TokenKind.Admits .number text.toList
  | .string value q _ => ∀ c ∈ value.toList, Lexeme.isInside q c = true
  | .system text _ => TokenKind.Admits .systemName ('@' :: text.toList)
  | .binary .. | .unary .. | .cursor .. | .paren .. => True

/-- Every node of the tree is spelled well, and its operands fit. -/
def Canonical (e : Expr) : Prop := ∀ x ∈ e.nodes, x.Spellable ∧ x.Fits

theorem Canonical.ranked {e : Expr} (h : e.Canonical) : e.Ranked := fun x hx => (h x hx).2

/-- A list is written once its expressions are. -/
theorem exists_words_list (es : List Expr) (h : ∀ e ∈ es, ∃ ws, e.InWords ws) :
    ∃ ws, Writes ws es ∧ ∀ w ∈ ws, w.Inline := by
  induction es using List.reverseRecOn with
  | nil => exact ⟨[], .nothing, by simp⟩
  | append_singleton es e ih =>
    obtain ⟨vs, hvs, hv, -⟩ := h e (by simp)
    by_cases hes : es = []
    · subst hes
      exact ⟨vs, hvs, hv⟩
    · obtain ⟨ws, hws, hw⟩ := ih fun e he => h e (by simp [he])
      refine ⟨ws ++ .ofSymbol .comma false :: vs, .comma hws hes rfl hvs, ?_⟩
      simp only [List.forall_mem_append, List.forall_mem_cons]
      exact ⟨hw, Word.inline_ofSymbol _ _, hv⟩

/-- A single word behind a blank. -/
theorem inWords_single {e : Expr} {k : TokenKind} (text : String) (ha : k.Admits text.toList)
    (h : Writes [⟨k, text, true, false⟩] [e]) : e.InWords [⟨k, text, true, false⟩] := by
  refine ⟨h, ?_, by simp⟩
  rw [List.forall_mem_singleton]
  exact ⟨ha, rfl⟩

/-- Words between brackets, behind a word that a blank comes before. -/
theorem inWords_bracketed {e : Expr} {w : Word} {ws : List Word} {y z : Symbol} (hw : w.Inline)
    (hs : w.spaced = true) (hws : ∀ w ∈ ws, w.Inline)
    (h : Writes (w :: .ofSymbol y false :: (ws ++ [.ofSymbol z false])) [e]) :
    e.InWords (w :: .ofSymbol y false :: (ws ++ [.ofSymbol z false])) := by
  refine ⟨h, ?_, by simpa using hs⟩
  simp only [List.forall_mem_append, List.forall_mem_cons]
  exact ⟨hw, Word.inline_ofSymbol _ _, hws, Word.inline_ofSymbol _ _, by simp⟩

/-- The nodes below the node of a name, of which there are up to three lists. -/
theorem exists_words_cons {e : Expr} {es : List Expr} (h : ∃ ws, e.InWords ws)
    (hs : ∀ e ∈ es, ∃ ws, e.InWords ws) : ∃ ws, Writes ws (e :: es) ∧ ∀ w ∈ ws, w.Inline :=
  exists_words_list (e :: es) (List.forall_mem_cons.mpr ⟨h, hs⟩)

mutual

/-- A canonical tree can be written. -/
theorem Canonical.exists_words : (e : Expr) → e.Canonical → ∃ ws, e.InWords ws
  | .binary left op right _, h => by
    obtain ⟨ws, hws, hw, hs⟩ := Canonical.exists_words left fun x hx => h x (by simp [nodes, hx])
    obtain ⟨vs, hvs, hv, hs'⟩ := Canonical.exists_words right fun x hx => h x (by simp [nodes, hx])
    obtain ⟨us, hus, hu⟩ := op.exists_written
    refine ⟨ws ++ (us ++ vs), .binary hws hus hvs hs', ?_, ?_⟩
    · simp only [List.forall_mem_append]
      exact ⟨hw, hu, hv⟩
    · obtain ⟨w, ws, rfl, -⟩ := hws.head (by simp)
      exact hs
  | .unary op operand _, h => by
    obtain ⟨ws, hws, hw, hs⟩ := Canonical.exists_words operand fun x hx => h x (by simp [nodes, hx])
    obtain ⟨u, hu, hinline, hspaced⟩ := op.exists_written
    exact ⟨u :: ws, .unary hu hws hs, List.forall_mem_cons.mpr ⟨hinline, hw⟩, by simpa using hspaced⟩
  | .name text range, h => by
    obtain ⟨k, hk, ha⟩ := (h (.name text range) (by simp [nodes])).1
    exact ⟨_, inWords_single text ha (.name hk)⟩
  | .number text range, h =>
    ⟨_, inWords_single text (h (.number text range) (by simp [nodes])).1 (.number rfl)⟩
  | .string value q range, h => by
    have htext : (String.ofList (q.char :: (value.toList ++ [q.char]))).toList =
        q.char :: (value.toList ++ [q.char]) := String.toList_ofList
    refine ⟨_, inWords_single (String.ofList (q.char :: (value.toList ++ [q.char]))) ?_ (.string rfl htext)⟩
    rw [htext]
    exact .string (h (.string value q range) (by simp [nodes])).1
  | .system text range, h => by
    have htext : (String.ofList ('@' :: text.toList)).toList = '@' :: text.toList := String.toList_ofList
    refine ⟨_, inWords_single (String.ofList ('@' :: text.toList)) ?_ (.system rfl htext)⟩
    rw [htext]
    exact (h (.system text range) (by simp [nodes])).1
  | .call text args range, h => by
    obtain ⟨k, hk, ha⟩ := (h (.call text args range) (by simp [nodes])).1
    obtain ⟨ws, hws, hw⟩ := exists_words_list args
      (Canonical.exists_words_all args fun x hx => h x (by simp [nodes, hx]))
    exact ⟨_, inWords_bracketed (w := ⟨k, text, true, false⟩) ⟨ha, rfl⟩ rfl hw
      (.call hk rfl rfl hws rfl)⟩
  | .dynamic text attr value subValue range, h => by
    obtain ⟨⟨k, hk, ha⟩, hsub⟩ := (h (.dynamic text attr value subValue range) (by simp [nodes])).1
    obtain ⟨ws, hws, hw⟩ := exists_words_cons
      (Canonical.exists_words attr fun x hx => h x (by simp [nodes, hx]))
      (List.forall_mem_append.mpr
        ⟨Canonical.exists_words_option value fun x hx => h x (by simp [nodes, hx]),
          Canonical.exists_words_option subValue fun x hx => h x (by simp [nodes, hx])⟩)
    exact ⟨_, inWords_bracketed (w := ⟨k, text, true, false⟩) ⟨ha, rfl⟩ rfl hw
      (.dynamic hk rfl rfl hws hsub rfl)⟩
  | .substring text start length range, h => by
    obtain ⟨k, hk, ha⟩ := (h (.substring text start length range) (by simp [nodes])).1
    obtain ⟨ws, hws, hw⟩ := exists_words_cons
      (Canonical.exists_words start fun x hx => h x (by simp [nodes, hx]))
      (Canonical.exists_words_option length fun x hx => h x (by simp [nodes, hx]))
    exact ⟨_, inWords_bracketed (w := ⟨k, text, true, false⟩) ⟨ha, rfl⟩ rfl hw
      (.substring hk rfl rfl hws rfl)⟩
  | .cursor column row range, h => by
    obtain ⟨ws, hws, hw⟩ := exists_words_cons
      (Canonical.exists_words column fun x hx => h x (by simp [nodes, hx]))
      (Canonical.exists_words_option row fun x hx => h x (by simp [nodes, hx]))
    exact ⟨_, inWords_bracketed (Word.inline_ofSymbol .atSign true) rfl hw
      (.cursor rfl rfl hws rfl)⟩
  | .paren inner range, h => by
    obtain ⟨ws, hws, hw, -⟩ := Canonical.exists_words inner fun x hx => h x (by simp [nodes, hx])
    refine ⟨.ofSymbol .leftParen true :: (ws ++ [.ofSymbol .rightParen false]), .paren rfl hws rfl,
      ?_, by simp [Word.ofSymbol]⟩
    simp only [List.forall_mem_append, List.forall_mem_cons]
    exact ⟨Word.inline_ofSymbol _ _, hw, Word.inline_ofSymbol _ _, by simp⟩

theorem Canonical.exists_words_all : (es : List Expr) → (∀ x ∈ nodesOf es, x.Spellable ∧ x.Fits) →
    ∀ e ∈ es, ∃ ws, e.InWords ws
  | [], _ => by simp
  | e :: es, h => List.forall_mem_cons.mpr
    ⟨Canonical.exists_words e fun x hx => h x (by simp [nodesOf, hx]),
      Canonical.exists_words_all es fun x hx => h x (by simp [nodesOf, hx])⟩

theorem Canonical.exists_words_option : (o : Option Expr) →
    (∀ x ∈ nodesOf? o, x.Spellable ∧ x.Fits) → ∀ e ∈ o.toList, ∃ ws, e.InWords ws
  | none, _ => by simp
  | some e, h => by
    rw [Option.toList_some, List.forall_mem_singleton]
    exact Canonical.exists_words e fun x hx => h x (by simpa [nodesOf?] using hx)

end

end Expr

end PickSyntax
