/-!
# The words of the language

Keywords are the words with a meaning of their own; they are written in any
mixture of cases. Some only open or close clauses and are soft: where a name is
required they read as one. `Keyword.ofWord?` is the only place where the spelling
of a word decides anything; everything later looks at the keyword.
-/
namespace PickSyntax

inductive Keyword where
  -- Units and declarations
  | SUBROUTINE | END | DIM | DIMENSION | COMMON | COM | EQUATE | EQU | LITERALLY | MAT
  -- Order of execution
  | IF | THEN | ELSE | BEGIN | CASE | FOR | TO | STEP | NEXT | WHILE | UNTIL | LOOP | DO
  | REPEAT | GOTO | GO | GOSUB | SUB | ON | RETURN | STOP | ABORT
  -- Terminal and printer
  | PRINT | CRT | INPUT | INPUTERR | INPUTNULL | INPUTTRAP | DATA | PROMPT | HEADING | FOOTING
  | PAGE | PRINTER | BREAK | ECHO | OFF
  -- Files, records and devices
  | OPEN | READ | READU | READV | READVU | FROM | WRITE | WRITEU | WRITEV | WRITEVU | DELETE
  | READNEXT | READT | WRITET | SELECT | LOCK | UNLOCK | RELEASE | CLEARFILE | MATREAD
  | MATREADU | MATWRITE | MATWRITEU | LOCATE | IN | SETTING | PROCREAD | PROCWRITE | REWIND
  | WEOF | ERROR | LOCKED
  -- Other programs
  | EXECUTE | CAPTURING | RETURNING | CHAIN | ENTER | CALL
  -- Housekeeping
  | PRECISION | SLEEP | RQM | NULL | CLEAR | REM
  -- Operators spelled as words
  | OR | AND | NOT | EQ | NE | LT | GT | LE | GE | MATCH | MATCHES | CAT
  deriving DecidableEq, Repr, Inhabited

namespace Keyword

/-- Every keyword, in order of declaration. -/
def all : List Keyword :=
  [.SUBROUTINE, .END, .DIM, .DIMENSION, .COMMON, .COM, .EQUATE, .EQU, .LITERALLY, .MAT, .IF,
   .THEN, .ELSE, .BEGIN, .CASE, .FOR, .TO, .STEP, .NEXT, .WHILE, .UNTIL, .LOOP, .DO, .REPEAT,
   .GOTO, .GO, .GOSUB, .SUB, .ON, .RETURN, .STOP, .ABORT, .PRINT, .CRT, .INPUT, .INPUTERR,
   .INPUTNULL, .INPUTTRAP, .DATA, .PROMPT, .HEADING, .FOOTING, .PAGE, .PRINTER, .BREAK, .ECHO,
   .OFF, .OPEN, .READ, .READU, .READV, .READVU, .FROM, .WRITE, .WRITEU, .WRITEV, .WRITEVU,
   .DELETE, .READNEXT, .READT, .WRITET, .SELECT, .LOCK, .UNLOCK, .RELEASE, .CLEARFILE, .MATREAD,
   .MATREADU, .MATWRITE, .MATWRITEU, .LOCATE, .IN, .SETTING, .PROCREAD, .PROCWRITE, .REWIND,
   .WEOF, .ERROR, .LOCKED, .EXECUTE, .CAPTURING, .RETURNING, .CHAIN, .ENTER, .CALL, .PRECISION,
   .SLEEP, .RQM, .NULL, .CLEAR, .REM, .OR, .AND, .NOT, .EQ, .NE, .LT, .GT, .LE, .GE, .MATCH,
   .MATCHES, .CAT]

/-- The upper-case spelling. -/
def spelling : Keyword → String
  | .SUBROUTINE => "SUBROUTINE" | .END => "END" | .DIM => "DIM" | .DIMENSION => "DIMENSION"
  | .COMMON => "COMMON" | .COM => "COM" | .EQUATE => "EQUATE" | .EQU => "EQU"
  | .LITERALLY => "LITERALLY" | .MAT => "MAT" | .IF => "IF" | .THEN => "THEN" | .ELSE => "ELSE"
  | .BEGIN => "BEGIN" | .CASE => "CASE" | .FOR => "FOR" | .TO => "TO" | .STEP => "STEP"
  | .NEXT => "NEXT" | .WHILE => "WHILE" | .UNTIL => "UNTIL" | .LOOP => "LOOP" | .DO => "DO"
  | .REPEAT => "REPEAT" | .GOTO => "GOTO" | .GO => "GO" | .GOSUB => "GOSUB" | .SUB => "SUB"
  | .ON => "ON" | .RETURN => "RETURN" | .STOP => "STOP" | .ABORT => "ABORT" | .PRINT => "PRINT"
  | .CRT => "CRT" | .INPUT => "INPUT" | .INPUTERR => "INPUTERR" | .INPUTNULL => "INPUTNULL"
  | .INPUTTRAP => "INPUTTRAP" | .DATA => "DATA" | .PROMPT => "PROMPT" | .HEADING => "HEADING"
  | .FOOTING => "FOOTING" | .PAGE => "PAGE" | .PRINTER => "PRINTER" | .BREAK => "BREAK"
  | .ECHO => "ECHO" | .OFF => "OFF" | .OPEN => "OPEN" | .READ => "READ" | .READU => "READU"
  | .READV => "READV" | .READVU => "READVU" | .FROM => "FROM" | .WRITE => "WRITE"
  | .WRITEU => "WRITEU" | .WRITEV => "WRITEV" | .WRITEVU => "WRITEVU" | .DELETE => "DELETE"
  | .READNEXT => "READNEXT" | .READT => "READT" | .WRITET => "WRITET" | .SELECT => "SELECT"
  | .LOCK => "LOCK" | .UNLOCK => "UNLOCK" | .RELEASE => "RELEASE" | .CLEARFILE => "CLEARFILE"
  | .MATREAD => "MATREAD" | .MATREADU => "MATREADU" | .MATWRITE => "MATWRITE"
  | .MATWRITEU => "MATWRITEU" | .LOCATE => "LOCATE" | .IN => "IN" | .SETTING => "SETTING"
  | .PROCREAD => "PROCREAD" | .PROCWRITE => "PROCWRITE" | .REWIND => "REWIND" | .WEOF => "WEOF"
  | .ERROR => "ERROR" | .LOCKED => "LOCKED" | .EXECUTE => "EXECUTE" | .CAPTURING => "CAPTURING"
  | .RETURNING => "RETURNING" | .CHAIN => "CHAIN" | .ENTER => "ENTER" | .CALL => "CALL"
  | .PRECISION => "PRECISION" | .SLEEP => "SLEEP" | .RQM => "RQM" | .NULL => "NULL"
  | .CLEAR => "CLEAR" | .REM => "REM" | .OR => "OR" | .AND => "AND" | .NOT => "NOT"
  | .EQ => "EQ" | .NE => "NE" | .LT => "LT" | .GT => "GT" | .LE => "LE" | .GE => "GE"
  | .MATCH => "MATCH" | .MATCHES => "MATCHES" | .CAT => "CAT"

/-- The keyword that a word spells in any case. -/
def ofWord? (word : List Char) : Option Keyword :=
  all.find? fun k => k.spelling.toList == word.map Char.toUpper

theorem mem_all (k : Keyword) : k ∈ all := by
  cases k <;> decide

theorem forall_mem_all_ofWord? : ∀ k ∈ all, ofWord? k.spelling.toList = some k := by
  decide +kernel

/-- No two keywords share a spelling, so each is found by its own. -/
theorem ofWord?_spelling (k : Keyword) : ofWord? k.spelling.toList = some k :=
  forall_mem_all_ofWord? k (mem_all k)

/-- Words that can begin a statement. -/
def beginsStatement : Keyword → Bool
  | .SUBROUTINE | .END | .DIM | .DIMENSION | .COMMON | .COM | .EQUATE | .EQU | .MAT | .IF
  | .BEGIN | .FOR | .LOOP | .GOTO | .GO | .GOSUB | .ON | .RETURN | .STOP | .ABORT | .PRINT
  | .CRT | .INPUT | .INPUTERR | .INPUTNULL | .INPUTTRAP | .DATA | .PROMPT | .HEADING | .FOOTING
  | .PAGE | .PRINTER | .BREAK | .ECHO | .OPEN | .READ | .READU | .READV | .READVU | .WRITE
  | .WRITEU | .WRITEV | .WRITEVU | .DELETE | .READNEXT | .READT | .WRITET | .SELECT | .LOCK
  | .UNLOCK | .RELEASE | .CLEARFILE | .MATREAD | .MATREADU | .MATWRITE | .MATWRITEU | .LOCATE
  | .PROCREAD | .PROCWRITE | .REWIND | .WEOF | .EXECUTE | .CHAIN | .ENTER | .CALL | .PRECISION
  | .SLEEP | .RQM | .NULL | .CLEAR => true
  | _ => false

/-- Words that close or divide the body of a block. -/
def endsBlock : Keyword → Bool
  | .END | .ELSE | .NEXT | .REPEAT | .CASE | .WHILE | .UNTIL => true
  | _ => false

/-- Clause words that read as plain names wherever a name or an operand is required. -/
def isSoft : Keyword → Bool
  | .ERROR | .OFF | .IN | .FROM | .SETTING | .CAPTURING | .RETURNING | .LITERALLY => true
  | _ => false

/-- Words that spell a binary operator. -/
def spellsOperator : Keyword → Bool
  | .OR | .AND | .EQ | .NE | .LT | .GT | .LE | .GE | .MATCH | .MATCHES | .CAT => true
  | _ => false

/-- Words after which a statement may begin. -/
def opensStatementList : Keyword → Bool
  | .THEN | .ELSE | .LOOP | .DO | .REPEAT | .END => true
  | _ => false

end Keyword
end PickSyntax
