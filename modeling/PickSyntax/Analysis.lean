import PickSyntax.Diagnostic
import PickSyntax.Grammar.Statement
import PickSyntax.Lexing
import PickSyntax.Text.Utf8
import PickSyntax.Tree.Writer

/-!
# From a source to a program

`parse` always yields a program, together with everything that was wrong on the way to
it. Only bytes that are not UTF-8 are refused. What is written to a log is left out, as are the
setters of the options and texts of tokens that no message quotes.
-/
namespace PickSyntax

structure Options where
  /-- The number of faults that are reported. -/
  reportLimit : Nat := 100
  /-- Comments that stand where a statement could become items of the program. -/
  keepComments : Bool := true
  deriving DecidableEq, Repr, Inhabited

/-- A program and what is wrong with its source. -/
structure Analysis where
  program : Program
  diagnostics : List Diagnostic

namespace Analysis

/-- Some diagnostic is an error; a warning alone does not count. -/
def hasErrors (a : Analysis) : Bool := a.diagnostics.any Diagnostic.isError

end Analysis

namespace Parser

/-- The state before the first token of a source. -/
def State.ofLexing (l : Lexing) (keepComments : Bool) : State :=
  .start l.tokens (if keepComments then l.comments else [])

/-- Reads all tokens that are left. -/
def State.readProgram (s : State) : Program × State :=
  match Grammar.program.run s with
  | (some p, s') => (p, s')
  | (none, s') => (⟨[]⟩, s')

/-- Takes the faults found so far. -/
def State.takeFaults (s : State) : List Fault × State := (s.faults, { s with faults := [] })

end Parser

/-- Reads a source as the options say. -/
def parseWith (options : Options) (source : String) : Analysis :=
  let lexing := lex source
  let (program, s) := (Parser.State.ofLexing lexing options.keepComments).readProgram
  let faults := Diagnostic.order lexing.faults s.faults
  ⟨program, Diagnostic.report source.toList options.reportLimit faults⟩

/-- Reads a source. -/
def parse (source : String) : Analysis := parseWith {} source

/-- Why a source cannot be read at all. -/
inductive Refusal where
  /-- The bytes are not UTF-8, though the first `validUpTo` of them are. -/
  | invalidEncoding (validUpTo : Nat)
  deriving DecidableEq, Repr

def Refusal.message : Refusal → String
  | .invalidEncoding n => "source is not valid UTF-8 (valid up to byte " ++ n.repr ++ ")"

/-- Reads a source given as bytes. -/
def parseBytes (bytes : List UInt8) : Except Refusal Analysis :=
  match Utf8.decode bytes with
  | .ok text => .ok (parse (String.ofList text))
  | .error n => .error (.invalidEncoding n)

end PickSyntax
