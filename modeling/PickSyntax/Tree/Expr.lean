import PickSyntax.Token

/-!
# Expressions

Operators bind in seven levels below the signs and `NOT`, and only the power
operator groups to the right. A name can stand alone or carry what is attached to
it: arguments, the attribute, value and sub-value of a dynamic array, or the bounds
of a substring. Parentheses are kept as nodes, so that a tree says how it was
written.
-/
namespace PickSyntax

inductive BinaryOp where
  | or | and | eq | ne | lt | gt | le | ge | matching | add | sub | concat | mul | div | pow
  deriving DecidableEq, Repr, Inhabited

namespace BinaryOp

/-- Every binary operator, in order of declaration. -/
def all : List BinaryOp :=
  [.or, .and, .eq, .ne, .lt, .gt, .le, .ge, .matching, .add, .sub, .concat, .mul, .div, .pow]

/-- The one spelling that the outline of a tree uses. -/
def spelling : BinaryOp → String
  | .or => "OR" | .and => "AND" | .eq => "=" | .ne => "#" | .lt => "<" | .gt => ">"
  | .le => "<=" | .ge => ">=" | .matching => "MATCHES" | .add => "+" | .sub => "-"
  | .concat => ":" | .mul => "*" | .div => "/" | .pow => "^"

/-- How tightly an operator binds, from 1. -/
def level : BinaryOp → Nat
  | .or => 1
  | .and => 2
  | .eq | .ne | .lt | .gt | .le | .ge | .matching => 3
  | .add | .sub => 4
  | .concat => 5
  | .mul | .div => 6
  | .pow => 7

def isRelational (op : BinaryOp) : Bool := op.level == 3

def groupsRight (op : BinaryOp) : Bool := op == .pow

/-- The right operand holds operators above this level. -/
def rightLevel (op : BinaryOp) : Nat :=
  if op.groupsRight then op.level - 1 else op.level

end BinaryOp

inductive UnaryOp where
  | neg | plus | not
  deriving DecidableEq, Repr, Inhabited

namespace UnaryOp

/-- Every unary operator, in order of declaration. -/
def all : List UnaryOp := [.neg, .plus, .not]

def spelling : UnaryOp → String
  | .neg => "-"
  | .plus => "+"
  | .not => "NOT"

/-- Above the level of every binary operator: `-2^2` is the square of `-2`. -/
def level : Nat := 8

end UnaryOp

inductive Expr where
  | binary (left : Expr) (op : BinaryOp) (right : Expr) (span : Span)
  | unary (op : UnaryOp) (operand : Expr) (span : Span)
  | name (name : String) (span : Span)
  /-- A number as written. -/
  | number (text : String) (span : Span)
  /-- The text between the delimiters. -/
  | string (value : String) (quote : Quote) (span : Span)
  /-- A function call or an array element, `NAME(args)`. -/
  | call (name : String) (args : List Expr) (span : Span)
  /-- Part of a dynamic array, `NAME<attr, value, subValue>`. -/
  | dynamic (name : String) (attr : Expr) (value subValue : Option Expr) (span : Span)
  /-- Part of a text, `NAME[start, length]`. -/
  | substring (name : String) (start : Expr) (length : Option Expr) (span : Span)
  /-- A cursor position, `@(column, row)`. -/
  | cursor (column : Expr) (row : Option Expr) (span : Span)
  /-- A system variable `@NAME`, named without its `@`. -/
  | system (name : String) (span : Span)
  | paren (inner : Expr) (span : Span)
  deriving Repr, Inhabited

namespace Expr

def span : Expr → Span
  | .binary _ _ _ s | .unary _ _ s | .name _ s | .number _ s | .string _ _ s | .call _ _ s
  | .dynamic _ _ _ _ s | .substring _ _ _ s | .cursor _ _ s | .system _ s | .paren _ s => s

/-- The name of the node in the outline of a tree. -/
def nodeName : Expr → String
  | .binary .. => "binary_expression"
  | .unary .. => "unary_expression"
  | .name .. => "identifier"
  | .number .. => "number"
  | .string .. => "string"
  | .call .. => "function_call"
  | .dynamic .. => "dynamic_array_ref"
  | .substring .. => "substring_ref"
  | .cursor .. => "at_expression"
  | .system .. => "at_variable"
  | .paren .. => "paren_expression"

/-- Expressions that can be assigned to. An element of an array looks like a call. -/
def isAssignable : Expr → Bool
  | .name .. | .dynamic .. | .substring .. | .call .. => true
  | _ => false

end Expr
end PickSyntax
