import PickSyntax.Grammar.Expression

/-!
# The tokens of an expression

`Spells ts es` says that the tokens `ts`, in this order, write the expressions `es` with a
comma between each two of them. It is the yield of a tree: operands, the one or two tokens
of every operator, brackets and commas, and nothing else. A tree does not say which
spelling of an operator was used, so the yield is a relation.

Ranges of nodes are left open here, except at the leaves.
-/
namespace PickSyntax

open PickSyntax.Grammar

/-- Identifiers and keywords. Any of them names a function when a parenthesis follows. -/
def TokenKind.isWord : TokenKind → Bool
  | .identifier | .keyword _ => true
  | _ => false

/-- The ways to write a binary operator: a word, a mark, or two marks side by side. -/
inductive BinaryOp.Spelling (op : BinaryOp) : List Token → Prop
  | word {t : Token} {k : Keyword} : t.kind = .keyword k → binaryOfKeyword? k = some op →
      Spelling op [t]
  | mark {t : Token} {y : Symbol} : t.kind = .symbol y →
      binaryOfSymbol? false y none = some (op, 1) → Spelling op [t]
  | marks {t u : Token} {y z : Symbol} : t.kind = .symbol y → u.kind = .symbol z →
      u.spaced = false → binaryOfSymbol? false y (some z) = some (op, 2) → Spelling op [t, u]

/-- The tokens write the expressions, with commas between them. -/
inductive Spells : List Token → List Expr → Prop
  | nothing : Spells [] []
  | comma {ts us : List Token} {c : Token} {es : List Expr} {e : Expr} : Spells ts es → es ≠ [] →
      c.kind = .symbol .comma → Spells us [e] → Spells (ts ++ c :: us) (es ++ [e])
  | binary {ts us vs : List Token} {left right : Expr} {op : BinaryOp} {span : Span} :
      Spells ts [left] → op.Spelling us → Spells vs [right] →
      Spells (ts ++ (us ++ vs)) [.binary left op right span]
  | unary {t : Token} {ts : List Token} {operand : Expr} {op : UnaryOp} {span : Span} :
      unaryOf? t.kind = some op → Spells ts [operand] → Spells (t :: ts) [.unary op operand span]
  | name {t : Token} : t.kind.isName = true → Spells [t] [.name t.text t.span]
  | number {t : Token} : t.kind = .number → Spells [t] [.number t.text t.span]
  | string {t : Token} {q : Quote} : t.kind = .string q →
      Spells [t] [.string (String.ofList (unquote q t.text.toList)) q t.span]
  | system {t : Token} : t.kind = .systemName → Spells [t] [.system (systemName t.text) t.span]
  | call {t opening closing : Token} {ts : List Token} {args : List Expr} {span : Span} :
      t.kind.isWord = true → opening.kind = .symbol .leftParen → Spells ts args →
      closing.kind = .symbol .rightParen →
      Spells (t :: opening :: (ts ++ [closing])) [.call t.text args span]
  | dynamic {t opening closing : Token} {ts : List Token} {attr : Expr}
      {value subValue : Option Expr} {span : Span} :
      t.kind.isName = true → opening.kind = .symbol .less →
      Spells ts (attr :: (value.toList ++ subValue.toList)) → (value = none → subValue = none) →
      closing.kind = .symbol .greater →
      Spells (t :: opening :: (ts ++ [closing])) [.dynamic t.text attr value subValue span]
  | substring {t opening closing : Token} {ts : List Token} {start : Expr} {length : Option Expr}
      {span : Span} :
      t.kind.isName = true → opening.kind = .symbol .leftBracket →
      Spells ts (start :: length.toList) → closing.kind = .symbol .rightBracket →
      Spells (t :: opening :: (ts ++ [closing])) [.substring t.text start length span]
  | cursor {t opening closing : Token} {ts : List Token} {column : Expr} {row : Option Expr}
      {span : Span} :
      t.kind = .symbol .atSign → opening.kind = .symbol .leftParen →
      Spells ts (column :: row.toList) → closing.kind = .symbol .rightParen →
      Spells (t :: opening :: (ts ++ [closing])) [.cursor column row span]
  | paren {opening closing : Token} {ts : List Token} {inner : Expr} {span : Span} :
      opening.kind = .symbol .leftParen → Spells ts [inner] →
      closing.kind = .symbol .rightParen →
      Spells (opening :: (ts ++ [closing])) [.paren inner span]

/-- What is spelled has at least one token. -/
theorem Spells.ne_nil {ts : List Token} {es : List Expr} (h : Spells ts es) (he : es ≠ []) :
    ts ≠ [] := by
  induction h with
  | nothing => exact absurd rfl he
  | binary _ _ _ ih _ => simp [ih]
  | _ => simp

theorem BinaryOp.Spelling.kind_ne_semicolon {op : BinaryOp} {ts : List Token}
    (h : op.Spelling ts) : ∀ t ∈ ts, t.kind ≠ .symbol .semicolon := by
  cases h with
  | word hk => simp [hk]
  | mark hy hop => grind [binaryOfSymbol?]
  | @marks t u y z hy hz _ hop =>
    have hy' : y ≠ .semicolon := by
      rintro rfl
      cases z <;> cases hop
    have hz' : z ≠ .semicolon := by
      rintro rfl
      cases y <;> cases hop
    simp [hy, hz, hy', hz']

/-- No separator is part of an expression. -/
theorem Spells.kind_ne_semicolon {ts : List Token} {es : List Expr} (h : Spells ts es) :
    ∀ t ∈ ts, t.kind ≠ .symbol .semicolon := by
  induction h with
  | nothing => simp
  | comma _ _ hc _ ih ih' => grind
  | binary _ hop _ ih ih' =>
    have := hop.kind_ne_semicolon
    grind
  | unary ht _ ih => grind [unaryOf?]
  | name ht => grind [TokenKind.isName]
  | call ht ho _ hc ih => grind [TokenKind.isWord]
  | dynamic ht ho _ _ hc ih => grind [TokenKind.isName]
  | substring ht ho _ hc ih => grind [TokenKind.isName]
  | _ => grind

end PickSyntax
