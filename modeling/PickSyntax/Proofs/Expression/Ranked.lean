import PickSyntax.Tree.Expr

/-!
# Trees that respect precedence

An expression tree is ranked when reading it back needs no parentheses beyond those that
it holds as nodes. At a binary node the operands may be binary only if they bind at least
as tightly, and strictly so on the side to which the operator does not group. A sign or
`NOT` never has a binary operand.

The condition is local to a node, so it is stated of one node and then of all nodes of a
tree.
-/
namespace PickSyntax.Expr

mutual

/-- All nodes of a tree, a node before those below it. -/
def nodes : Expr → List Expr
  | .binary left op right span => .binary left op right span :: (left.nodes ++ right.nodes)
  | .unary op operand span => .unary op operand span :: operand.nodes
  | .call word args span => .call word args span :: nodesOf args
  | .dynamic word attr value subValue span =>
    .dynamic word attr value subValue span :: (attr.nodes ++ nodesOf? value ++ nodesOf? subValue)
  | .substring word start length span =>
    .substring word start length span :: (start.nodes ++ nodesOf? length)
  | .cursor column row span => .cursor column row span :: (column.nodes ++ nodesOf? row)
  | .paren inner span => .paren inner span :: inner.nodes
  | e => [e]

def nodesOf : List Expr → List Expr
  | [] => []
  | e :: es => e.nodes ++ nodesOf es

def nodesOf? : Option Expr → List Expr
  | none => []
  | some e => e.nodes

end

attribute [grind =] nodes nodesOf nodesOf?

theorem nodesOf_eq_flatMap (es : List Expr) : nodesOf es = es.flatMap nodes := by
  induction es with
  | nil => rfl
  | cons e es ih => rw [nodesOf, ih, List.flatMap_cons]

@[simp] theorem nodesOf_append (es fs : List Expr) : nodesOf (es ++ fs) = nodesOf es ++ nodesOf fs := by
  simp only [nodesOf_eq_flatMap, List.flatMap_append]

theorem nodesOf?_eq (e : Option Expr) : nodesOf? e = nodesOf e.toList := by
  cases e <;> simp [nodesOf?, nodesOf]

/-- The level of the operator at the root, if that is a binary one. -/
def infixLevel? : Expr → Option Nat
  | .binary _ op _ _ => some op.level
  | _ => none

/-- The operands of this node bind tightly enough to stand without parentheses. -/
def Fits : Expr → Prop
  | .binary left op right _ =>
    (∀ k, left.infixLevel? = some k → op.level ≤ k ∧ (op = .pow → op.level < k)) ∧
    (∀ k, right.infixLevel? = some k → op.level ≤ k ∧ (op ≠ .pow → op.level < k))
  | .unary _ operand _ => operand.infixLevel? = none
  | _ => True

attribute [grind =] infixLevel? Fits

/-- Every node of the tree has operands that fit. -/
def Ranked (e : Expr) : Prop := ∀ x ∈ e.nodes, x.Fits

/-- Every tree of a list is ranked. -/
def RankedAll (es : List Expr) : Prop := ∀ x ∈ nodesOf es, x.Fits

@[simp] theorem rankedAll_nil : RankedAll [] := by
  simp [RankedAll, nodesOf]

@[simp] theorem rankedAll_cons {e : Expr} {es : List Expr} :
    RankedAll (e :: es) ↔ e.Ranked ∧ RankedAll es := by
  simp only [RankedAll, Ranked, nodesOf, List.mem_append]
  exact ⟨fun h => ⟨fun x hx => h x (.inl hx), fun x hx => h x (.inr hx)⟩,
    fun h x hx => hx.elim (h.1 x) (h.2 x)⟩

@[simp] theorem rankedAll_append {es fs : List Expr} :
    RankedAll (es ++ fs) ↔ RankedAll es ∧ RankedAll fs := by
  induction es with
  | nil => simp
  | cons e es ih => rw [List.cons_append, rankedAll_cons, rankedAll_cons, ih, and_assoc]

section Nodes
variable {left right operand inner e : Expr} {op : BinaryOp} {sign : UnaryOp} {range : Span}
variable {word : String} {args : List Expr} {second third : Option Expr}

theorem ranked_binary : (Expr.binary left op right range).Ranked ↔
    (Expr.binary left op right range).Fits ∧ left.Ranked ∧ right.Ranked := by
  simp only [Ranked, nodes, List.forall_mem_cons, List.forall_mem_append]

theorem ranked_unary : (Expr.unary sign operand range).Ranked ↔
    operand.infixLevel? = none ∧ operand.Ranked := by
  simp only [Ranked, nodes, List.forall_mem_cons, Fits]

theorem ranked_call : (Expr.call word args range).Ranked ↔ RankedAll args := by
  simp only [Ranked, RankedAll, nodes, List.forall_mem_cons, Fits, true_and]

theorem ranked_dynamic : (Expr.dynamic word e second third range).Ranked ↔
    RankedAll (e :: (second.toList ++ third.toList)) := by
  simp only [Ranked, RankedAll, nodes, nodesOf, nodesOf?_eq, nodesOf_append,
    List.forall_mem_cons, Fits, true_and, List.append_assoc]

theorem ranked_substring : (Expr.substring word e second range).Ranked ↔
    RankedAll (e :: second.toList) := by
  simp only [Ranked, RankedAll, nodes, nodesOf, nodesOf?_eq, List.forall_mem_cons, Fits, true_and]

theorem ranked_cursor : (Expr.cursor e second range).Ranked ↔ RankedAll (e :: second.toList) := by
  simp only [Ranked, RankedAll, nodes, nodesOf, nodesOf?_eq, List.forall_mem_cons, Fits, true_and]

theorem ranked_paren : (Expr.paren inner range).Ranked ↔ inner.Ranked := by
  simp only [Ranked, nodes, List.forall_mem_cons, Fits, true_and]

end Nodes

end PickSyntax.Expr
