import PickSyntax.Token

/-!
# Lexemes

A lexeme is the longest piece at the front of the source that one of the
language's patterns matches. Which pattern applies is decided by the class of the
first character, so `Lexeme.scan` is one choice among the classes followed by a
run of like characters. A scan splits the source: its text is never empty, and
text and rest together are what was scanned (`scan_split`).

What a lexeme means can depend on what came before it, as with a star that may
open a comment. That is decided later, when the lexemes are laid out.
-/
namespace PickSyntax

/-- Blanks other than the line feed. -/
def isBlank (c : Char) : Bool := c == ' ' || c == '\t' || c == '\r' || c == '\x0c'

/-- Characters of a word after its first letter. -/
def isWordChar (c : Char) : Bool := c.isAlphanum || c == '.' || c == '$'

/-- Characters of a system name after its first letter. -/
def isSystemNameChar (c : Char) : Bool := c.isAlphanum || c == '.'

/-- Characters that do not end a line. -/
def isOnLine (c : Char) : Bool := c != '\n'

/-- What the first character of a lexeme decides. -/
inductive CharClass where
  | blank | newline | ampersand | bang | letter | digit | point
  | quote (q : Quote)
  | symbol (s : Symbol)
  | other
  deriving DecidableEq, Repr

def CharClass.of (c : Char) : CharClass :=
  if isBlank c then .blank
  else if c == '\n' then .newline
  else if c.isAlpha then .letter
  else if c.isDigit then .digit
  else if c == '&' then .ampersand
  else if c == '!' then .bang
  else if c == '.' then .point
  else
    match Quote.ofChar? c, Symbol.ofChar? c with
    | some q, _ => .quote q
    | none, some s => .symbol s
    | none, none => .other

inductive LexemeKind where
  | blank
  | newline
  /-- An `&` and the line break right after it. -/
  | continuation
  | ampersand
  /-- A `!` and the rest of its line. -/
  | remark
  | word
  | systemName
  | number
  | string (quote : Quote)
  /-- A string that its line leaves open. -/
  | openString (quote : Quote)
  | symbol (s : Symbol)
  /-- A character that begins no lexeme. The delimiter of an open string that holds a
  carriage return is one too, and takes the rest of its line with it. -/
  | invalid (char : Char)
  deriving DecidableEq, Repr

structure Lexeme where
  kind : LexemeKind
  text : List Char
  rest : List Char
  deriving DecidableEq, Repr

namespace Lexeme

/-- The first character alone. -/
def single (kind : LexemeKind) (c : Char) (cs : List Char) : Lexeme := ⟨kind, [c], cs⟩

/-- The first character and the run of characters in `p` after it. -/
def run (kind : LexemeKind) (p : Char → Bool) (c : Char) (cs : List Char) : Lexeme :=
  ⟨kind, c :: cs.takeWhile p, cs.dropWhile p⟩

/-- An `&` joins two lines when the line break follows it directly. -/
def ampersand (c : Char) : List Char → Lexeme
  | '\n' :: cs => ⟨.continuation, [c, '\n'], cs⟩
  | '\r' :: '\n' :: cs => ⟨.continuation, [c, '\r', '\n'], cs⟩
  | cs => single .ampersand c cs

/-- A symbol; an `@` takes the word that follows it directly. -/
def symbol (s : Symbol) (c : Char) (cs : List Char) : Lexeme :=
  match s, cs with
  | .atSign, d :: ds =>
    if d.isAlpha then
      ⟨.systemName, c :: d :: ds.takeWhile isSystemNameChar, ds.dropWhile isSystemNameChar⟩
    else single (.symbol s) c cs
  | _, _ => single (.symbol s) c cs

/-- Digits, and a point with any digits after it. -/
def number (c : Char) (cs : List Char) : Lexeme :=
  match cs.dropWhile Char.isDigit with
  | '.' :: ds =>
    ⟨.number, c :: cs.takeWhile Char.isDigit ++ '.' :: ds.takeWhile Char.isDigit,
      ds.dropWhile Char.isDigit⟩
  | _ => run .number Char.isDigit c cs

/-- A point begins a number only before a digit. -/
def point (c : Char) (cs : List Char) : Lexeme :=
  match cs with
  | d :: _ => if d.isDigit then run .number Char.isDigit c cs else single (.invalid c) c cs
  | [] => single (.invalid c) c cs

/-- A character between the delimiters of a string. -/
def isInside (q : Quote) (c : Char) : Bool := c != q.char && c != '\n'

/-- A string up to its delimiter, or to the end of the line that leaves it open. -/
def quoted (q : Quote) (c : Char) (cs : List Char) : Lexeme :=
  let body := cs.takeWhile (isInside q)
  let unclosed : LexemeKind := if body.contains '\r' then .invalid c else .openString q
  match cs.dropWhile (isInside q) with
  | d :: ds =>
    if d == q.char then ⟨.string q, c :: body ++ [d], ds⟩ else ⟨unclosed, c :: body, d :: ds⟩
  | [] => ⟨unclosed, c :: body, []⟩

/-- The lexeme at the front of `c :: cs`. -/
def scan (c : Char) (cs : List Char) : Lexeme :=
  match CharClass.of c with
  | .blank => run .blank isBlank c cs
  | .newline => single .newline c cs
  | .ampersand => ampersand c cs
  | .bang => run .remark isOnLine c cs
  | .letter => run .word isWordChar c cs
  | .digit => number c cs
  | .point => point c cs
  | .quote q => quoted q c cs
  | .symbol s => symbol s c cs
  | .other => single (.invalid c) c cs

theorem run_split (k : LexemeKind) (p : Char → Bool) (c : Char) (cs : List Char) :
    (run k p c cs).text ++ (run k p c cs).rest = c :: cs := by
  simp [run]

theorem ampersand_split (c : Char) (cs : List Char) :
    (ampersand c cs).text ++ (ampersand c cs).rest = c :: cs := by
  unfold ampersand
  split <;> simp [single]

theorem symbol_split (s : Symbol) (c : Char) (cs : List Char) :
    (symbol s c cs).text ++ (symbol s c cs).rest = c :: cs := by
  unfold symbol
  split
  · split <;> simp [single]
  · simp [single]

theorem number_split (c : Char) (cs : List Char) :
    (number c cs).text ++ (number c cs).rest = c :: cs := by
  unfold number
  split
  next ds h =>
    have hs := List.takeWhile_append_dropWhile (p := Char.isDigit) (l := cs)
    rw [h] at hs
    simpa using hs
  next => exact run_split ..

theorem point_split (c : Char) (cs : List Char) :
    (point c cs).text ++ (point c cs).rest = c :: cs := by
  unfold point
  split
  · split
    · exact run_split ..
    · rfl
  · rfl

theorem quoted_split (q : Quote) (c : Char) (cs : List Char) :
    (quoted q c cs).text ++ (quoted q c cs).rest = c :: cs := by
  have hs := List.takeWhile_append_dropWhile (p := isInside q) (l := cs)
  unfold quoted
  split
  next d ds h =>
    rw [h] at hs
    dsimp only
    split <;> simpa using hs
  next h =>
    rw [h] at hs
    simpa using hs

/-- A scan loses nothing and invents nothing. -/
theorem scan_split (c : Char) (cs : List Char) :
    (scan c cs).text ++ (scan c cs).rest = c :: cs := by
  unfold scan
  split
  · exact run_split ..
  · rfl
  · exact ampersand_split ..
  · exact run_split ..
  · exact run_split ..
  · exact number_split ..
  · exact point_split ..
  · exact quoted_split ..
  · exact symbol_split ..
  · rfl

/-- A lexeme is never empty. -/
theorem scan_text_ne_nil (c : Char) (cs : List Char) : (scan c cs).text ≠ [] := by
  unfold scan
  split <;> simp only [run, single, ampersand, symbol, number, point, quoted] <;>
    repeat' split
  all_goals simp

theorem scan_rest_lt (c : Char) (cs : List Char) :
    (scan c cs).rest.length < (c :: cs).length := by
  have hs := congrArg List.length (scan_split c cs)
  have hn := List.length_pos_iff.mpr (scan_text_ne_nil c cs)
  rw [List.length_append] at hs
  omega

/-- The lexeme carried on to the end of its line. -/
def toLineEnd (l : Lexeme) : Lexeme :=
  { l with text := l.text ++ l.rest.takeWhile isOnLine, rest := l.rest.dropWhile isOnLine }

theorem toLineEnd_split (l : Lexeme) : l.toLineEnd.text ++ l.toLineEnd.rest = l.text ++ l.rest := by
  simp [toLineEnd]

theorem toLineEnd_rest_le (l : Lexeme) : l.toLineEnd.rest.length ≤ l.rest.length := by
  exact (List.dropWhile_sublist isOnLine).length_le

end Lexeme
end PickSyntax
