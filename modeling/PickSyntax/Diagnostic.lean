import PickSyntax.Fault
import PickSyntax.LineIndex

/-!
# Diagnostics

A diagnostic is a fault with its place in the text. Lexical faults come first, in the
order of the source; the faults of the grammar follow, ordered by where they start,
since a block is reported only when it ends, after all that is wrong inside it. Faults
beyond a limit are not reported: the first of them leaves a warning in its place.
-/
namespace PickSyntax

inductive Severity where
  | warning | error
  deriving DecidableEq, Repr, Inhabited

def Severity.render : Severity → String
  | .warning => "warning"
  | .error => "error"

structure Diagnostic where
  severity : Severity
  fault : Fault
  /-- The position of the first byte of the fault. -/
  position : Position
  deriving DecidableEq, Repr, Inhabited

namespace Diagnostic

def isError (d : Diagnostic) : Bool := d.severity == .error

/-- Written as `line:column: severity: message`. -/
def render (d : Diagnostic) : String :=
  d.position.render ++ ": " ++ d.severity.render ++ ": " ++ d.fault.message

/-- A fault located in its source. -/
def locate (source : List Char) (severity : Severity) (f : Fault) : Diagnostic :=
  ⟨severity, f, .ofOffset source f.span.start⟩

/-- The faults in the order of reporting. -/
def order (lexical grammar : List Fault) : List Fault :=
  lexical ++ grammar.mergeSort fun a b => a.span.start ≤ b.span.start

end Diagnostic

/-- What has been reported so far. Once as many faults as the limit allows are reported, one
warning says that the list is cut short, and the faults that follow are dropped. -/
structure Collector where
  items : Array Diagnostic := #[]
  truncated : Bool := false
  deriving DecidableEq, Repr, Inhabited

namespace Collector

def push (source : List Char) (c : Collector) (severity : Severity) (f : Fault) : Collector :=
  { c with items := c.items.push (.locate source severity f) }

def add (source : List Char) (limit : Nat) (c : Collector) (f : Fault) : Collector :=
  if c.truncated then c
  else if limit ≤ c.items.size then
    { c with truncated := true }.push source .warning ⟨.overLimit limit, f.span⟩
  else c.push source .error f

def addAll (source : List Char) (limit : Nat) (c : Collector) (faults : List Fault) : Collector :=
  faults.foldl (add source limit) c

end Collector

/-- The diagnostics for the faults of a source. -/
def Diagnostic.report (source : List Char) (limit : Nat) (faults : List Fault) :
    List Diagnostic :=
  (Collector.addAll source limit {} faults).items.toList

end PickSyntax
