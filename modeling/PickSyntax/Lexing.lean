import PickSyntax.Fault
import PickSyntax.Lexeme

/-!
# From lexemes to tokens, trivia and comments

A `Lexer` walks the source and remembers what the meaning of a lexeme can depend
on: where it stands, the last token, and whether a line has ended since. Three
decisions need that memory. A star opens a comment where a statement may begin and
multiplies elsewhere; a token is a line start when a line feed that is not joined
by an `&` came before it; and a comment belongs to the tree only where a statement
may begin.

Each step turns one lexeme into one `Piece`. The pieces in order are the whole
result; tokens, trivia, comments and faults are four views of that one list.
-/
namespace PickSyntax

inductive TriviaKind where
  | blank
  | newline
  | continuation
  | comment (mark : CommentMark)
  deriving DecidableEq, Repr, Inhabited

/-- Source text that is not part of any token. -/
structure Trivia where
  kind : TriviaKind
  span : Span
  deriving DecidableEq, Repr, Inhabited

/-- What one lexeme amounts to. -/
inductive Piece where
  | token (t : Token)
  | trivia (t : Trivia)
  /-- A comment, and whether it stands where a statement may begin. -/
  | comment (c : Comment) (standing : Bool)
  | fault (f : Fault)
  /-- A string that its line leaves open is a token and a fault. -/
  | openString (t : Token)
  deriving DecidableEq, Repr

namespace Piece

def token? : Piece → Option Token
  | .token t | .openString t => some t
  | _ => none

def trivia? : Piece → Option Trivia
  | .trivia t => some t
  | .comment c _ => some ⟨.comment c.mark, c.span⟩
  | _ => none

def comment? : Piece → Option Comment
  | .comment c true => some c
  | _ => none

def fault? : Piece → Option Fault
  | .fault f => some f
  | .openString t => some ⟨.openString, t.span⟩
  | _ => none

end Piece

structure Lexer where
  /-- The source not yet read. -/
  rest : List Char
  /-- Byte offset of `rest`. -/
  offset : Nat
  position : Position
  /-- The last token. -/
  previous : Option Token
  /-- A line has ended since the last token. -/
  lineStart : Bool

namespace Lexer

def start (source : List Char) : Lexer := ⟨source, 0, .origin, none, true⟩

/-- A statement may begin here: first of all, at a line start, after a separator and
after a word that opens a statement list. -/
def atStatement (s : Lexer) : Bool :=
  match s.previous with
  | none => true
  | some t => t.kind.opensStatementList || s.lineStart

/-- The bytes of a text that stands here. -/
def spanOf (s : Lexer) (text : List Char) : Span := ⟨s.offset, s.offset + byteSize text⟩

/-- Moves past a lexeme. -/
def skip (s : Lexer) (l : Lexeme) : Lexer :=
  { s with
    rest := l.rest
    offset := s.offset + byteSize l.text
    position := s.position.after l.text }

/-- The token that a lexeme makes here. -/
def tokenOf (s : Lexer) (kind : TokenKind) (l : Lexeme) : Token where
  kind := kind
  span := s.spanOf l.text
  text := String.ofList l.text
  position := s.position
  spaced :=
    match s.previous with
    | none => 0 < s.offset
    | some t => t.span.stop != s.offset
  lineStart := s.lineStart

/-- Moves past a token. -/
def accept (s : Lexer) (t : Token) (l : Lexeme) : Lexer :=
  { s.skip l with previous := some t, lineStart := false }

def emit (s : Lexer) (kind : TokenKind) (l : Lexeme) : Piece × Lexer :=
  let t := s.tokenOf kind l
  (.token t, s.accept t l)

/-- Drops the carriage returns at the end of a text. -/
def trimReturns (text : List Char) : List Char := (text.reverse.dropWhile (· == '\r')).reverse

def remark (s : Lexer) (mark : CommentMark) (l : Lexeme) : Piece × Lexer :=
  let text := trimReturns l.text
  (.comment ⟨mark, String.ofList text, s.spanOf text⟩ s.atStatement, s.skip l)

/-- The word `REM` opens a comment at the end of its line and before a blank. -/
def opensRemark : List Char → Bool
  | [] => true
  | c :: _ => c == ' ' || c == '\t' || c == '\r' || c == '\n'

/-- What a lexeme amounts to here, and the lexer after it. -/
def step (s : Lexer) (l : Lexeme) : Piece × Lexer :=
  match l.kind with
  | .blank => (.trivia ⟨.blank, s.spanOf l.text⟩, s.skip l)
  | .newline => (.trivia ⟨.newline, s.spanOf l.text⟩, { s.skip l with lineStart := true })
  | .continuation => (.trivia ⟨.continuation, s.spanOf l.text⟩, s.skip l)
  | .ampersand => (.fault ⟨.looseAmpersand, s.spanOf l.text⟩, s.skip l)
  | .invalid c => (.fault ⟨.strayCharacter c, s.spanOf l.text⟩, s.skip l)
  | .remark => s.remark .bang l
  | .word =>
    match Keyword.ofWord? l.text with
    | none => s.emit .identifier l
    | some k =>
      if k = .REM ∧ opensRemark l.rest then s.remark .rem l.toLineEnd else s.emit (.keyword k) l
  | .symbol y =>
    if y = .star ∧ s.atStatement then s.remark .star l.toLineEnd else s.emit (.symbol y) l
  | .systemName => s.emit .systemName l
  | .number => s.emit .number l
  | .string q => s.emit (.string q) l
  | .openString q =>
    let t := s.tokenOf (.string q) l
    (.openString t, s.accept t l)

theorem step_rest_le (s : Lexer) (l : Lexeme) : (s.step l).2.rest.length ≤ l.rest.length := by
  unfold step
  repeat' split
  all_goals first
    | exact Nat.le_refl _
    | exact l.toLineEnd_rest_le

/-- The next piece, unless the source has ended. -/
def next? (s : Lexer) : Option (Piece × Lexer) :=
  match s.rest with
  | [] => none
  | c :: cs => some (s.step (Lexeme.scan c cs))

theorem next?_rest_lt {s s' : Lexer} {p : Piece} (h : s.next? = some (p, s')) :
    s'.rest.length < s.rest.length := by
  unfold next? at h
  split at h
  next => contradiction
  next c cs hr =>
    have hs : (s.step (Lexeme.scan c cs)).2 = s' := by simp_all
    rw [hr, ← hs]
    exact Nat.lt_of_le_of_lt (s.step_rest_le _) (Lexeme.scan_rest_lt c cs)

/-- All pieces from here to the end of the source. -/
def pieces (s : Lexer) : List Piece :=
  match _h : s.next? with
  | none => []
  | some (p, s') => p :: s'.pieces
termination_by s.rest.length
decreasing_by exact next?_rest_lt _h

end Lexer

/-- Everything read from one source. -/
structure Lexing where
  tokens : List Token
  /-- Blanks, line feeds, continuations and comments, in order. -/
  trivia : List Trivia
  /-- The comments that stand where a statement may begin. -/
  comments : List Comment
  faults : List Fault

namespace Lexing

def ofPieces (ps : List Piece) : Lexing where
  tokens := ps.filterMap Piece.token?
  trivia := ps.filterMap Piece.trivia?
  comments := ps.filterMap Piece.comment?
  faults := ps.filterMap Piece.fault?

/-- Takes the first of the tokens that are left. -/
def next (l : Lexing) : Option Token × Lexing :=
  (l.tokens.head?, { l with tokens := l.tokens.tail })

end Lexing

/-- Reads a source into tokens, trivia, comments and faults. -/
def lex (source : String) : Lexing := .ofPieces (Lexer.start source.toList).pieces

end PickSyntax
