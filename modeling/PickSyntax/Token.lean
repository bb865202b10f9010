import PickSyntax.Keyword
import PickSyntax.Position
import PickSyntax.Span

/-!
# Tokens

A token is a significant lexeme with its place and two layout flags. The flags
carry all that the grammar wants to know about blanks: whether anything separates
the token from the one before it (`spaced`), and whether it begins a logical line
(`lineStart`; a continued line is not a new one). Comparisons of two characters
are two tokens, so that a reference such as `REC<1>` can close before an `=`.
-/
namespace PickSyntax

/-- The three string delimiters. -/
inductive Quote where
  | single | double | backslash
  deriving DecidableEq, Repr, Inhabited

namespace Quote

def char : Quote → Char
  | .single => '\x27'
  | .double => '"'
  | .backslash => '\\'

def ofChar? : Char → Option Quote
  | '\x27' => some .single
  | '"' => some .double
  | '\\' => some .backslash
  | _ => none

@[simp] theorem ofChar?_char (q : Quote) : ofChar? q.char = some q := by
  cases q <;> rfl

end Quote

/-- The one-character marks of the language. -/
inductive Symbol where
  | atSign | plus | minus | star | slash | caret | colon | equals | less | greater | hash
  | comma | semicolon | leftParen | rightParen | leftBracket | rightBracket
  deriving DecidableEq, Repr, Inhabited

namespace Symbol

def char : Symbol → Char
  | .atSign => '@' | .plus => '+' | .minus => '-' | .star => '*' | .slash => '/'
  | .caret => '^' | .colon => ':' | .equals => '=' | .less => '<' | .greater => '>'
  | .hash => '#' | .comma => ',' | .semicolon => ';' | .leftParen => '(' | .rightParen => ')'
  | .leftBracket => '[' | .rightBracket => ']'

def ofChar? : Char → Option Symbol
  | '@' => some .atSign | '+' => some .plus | '-' => some .minus | '*' => some .star
  | '/' => some .slash | '^' => some .caret | ':' => some .colon | '=' => some .equals
  | '<' => some .less | '>' => some .greater | '#' => some .hash | ',' => some .comma
  | ';' => some .semicolon | '(' => some .leftParen | ')' => some .rightParen
  | '[' => some .leftBracket | ']' => some .rightBracket
  | _ => none

@[simp] theorem ofChar?_char (s : Symbol) : ofChar? s.char = some s := by
  cases s <;> rfl

/-- The mark between backticks, as messages name it. -/
def quoted (s : Symbol) : String := String.ofList ['\x60', s.char, '\x60']

end Symbol

inductive TokenKind where
  | keyword (k : Keyword)
  | identifier
  | number
  /-- Quoted text, delimiters included. -/
  | string (quote : Quote)
  /-- A name with `@` directly before it. -/
  | systemName
  | symbol (s : Symbol)
  deriving DecidableEq, Repr, Inhabited

namespace TokenKind

/-- The name of the kind in messages. -/
def describe : TokenKind → String
  | .keyword k => k.spelling
  | .identifier => "identifier"
  | .number => "number"
  | .string _ => "string"
  | .systemName => "@variable"
  | .symbol s => s.quoted

/-- A name: an identifier, or a soft keyword used as one. -/
def isName : TokenKind → Bool
  | .identifier => true
  | .keyword k => k.isSoft
  | _ => false

/-- Kinds that can begin an expression. -/
def beginsExpression : TokenKind → Bool
  | .identifier | .number | .string _ | .systemName => true
  | .symbol s =>
    match s with
    | .atSign | .leftParen | .minus | .plus => true
    | _ => false
  | .keyword k => k == .NOT || k.isSoft

/-- Kinds that begin an operand without being a sign or a word of the language. -/
def beginsOperand : TokenKind → Bool
  | .identifier | .number | .string _ | .systemName => true
  | .symbol s =>
    match s with
    | .atSign | .leftParen => true
    | _ => false
  | .keyword _ => false

/-- A statement may begin right after a token of this kind. -/
def opensStatementList : TokenKind → Bool
  | .symbol s => s == .semicolon
  | .keyword k => k.opensStatementList
  | _ => false

/-- Reading resumes at such a token after a fault: at a separator, and at a word
that begins a statement or closes a block. -/
def resumes : TokenKind → Bool
  | .symbol s => s == .semicolon
  | .keyword k => k.beginsStatement || k.endsBlock
  | _ => false

end TokenKind

structure Token where
  kind : TokenKind
  span : Span
  /-- The text as written. -/
  text : String
  /-- The position of the first character. -/
  position : Position
  /-- Something separates the token from the one before it. -/
  spaced : Bool
  /-- The token is the first of its logical line. -/
  lineStart : Bool
  deriving DecidableEq, Repr, Inhabited

namespace Token

/-- How a message names the token it stopped at: words and numbers by their text. -/
def describe (t : Token) : String :=
  match t.kind with
  | .keyword _ | .identifier | .number => "`" ++ t.text ++ "`"
  | kind => kind.describe

end Token

/-- How a comment is introduced. -/
inductive CommentMark where
  | star | bang | rem
  deriving DecidableEq, Repr, Inhabited

/-- A comment with its opener; carriage returns that end its line are not part of it. -/
structure Comment where
  mark : CommentMark
  text : String
  span : Span
  deriving DecidableEq, Repr, Inhabited

end PickSyntax
