/-!
# Symbolic expressions

The written form of an outline: a node is its name and its children between
parentheses, one blank before each child. A child can carry a label, and an
operator is written between double quotes.
-/
namespace PickSyntax

inductive Sexp where
  | node (name : String) (children : List Sexp)
  | labelled (label : String) (child : Sexp)
  | quoted (text : String)
  deriving Repr, Inhabited

namespace Sexp

/-- A node without children. -/
def leaf (name : String) : Sexp := .node name []

mutual

def render : Sexp → String
  | .node name children => "(" ++ name ++ renderChildren children ++ ")"
  | .labelled label child => label ++ ": " ++ child.render
  | .quoted text => "\"" ++ text ++ "\""

/-- The children of a node, each with the blank before it. -/
def renderChildren : List Sexp → String
  | [] => ""
  | child :: children => " " ++ child.render ++ renderChildren children

end

end Sexp
end PickSyntax
