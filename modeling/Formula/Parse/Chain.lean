import Formula.Expr.Basic

/-! Operator chains, assembled on a stack of pending operands so that every level associates to
the left; the first join that would build a node taller than `treeLimit` is refused. -/
namespace Formula

/-- The greatest height of a binary node. -/
def treeLimit : Nat := 2048

/-- A binary operator and the operand after it. -/
structure Link where
  op : Spanned BinaryOp
  operand : Expr

/-- A first operand and the links after it. -/
structure Chain where
  first : Expr
  links : List Link

/-- A left operand waiting for its right side: the operand, its height, and the operator after
it. -/
structure Pending where
  left : Expr
  height : Nat
  op : Spanned BinaryOp

/-- The assembly stack: the operand on top with its height, and the pending operands below it,
nearest first. There is always one more operand than operators. -/
structure Stack where
  top : Expr
  height : Nat
  below : List Pending

namespace Stack

/-- The stack holding one operand. -/
def single (e : Expr) : Stack := ⟨e, e.scanHeight, []⟩

/-- Joins the pending operand `p` to `top` of height `h`, or refuses with the pending operator
when the node would be taller than `treeLimit`. -/
def joinPending (p : Pending) (top : Expr) (h : Nat) : Except (Spanned BinaryOp) (Expr × Nat) :=
  if treeLimit < max p.height h + 1 then .error p.op
  else .ok (Expr.join p.left p.op top, max p.height h + 1)

/-- Joins the top to the pending operands while their operator binds at least as tightly as
`prec`. -/
def settle (prec : Nat) (top : Expr) (h : Nat) : List Pending → Except (Spanned BinaryOp) Stack
  | [] => .ok ⟨top, h, []⟩
  | p :: ps =>
    if prec ≤ p.op.val.precedence then
      match joinPending p top h with
      | .ok (t, h') => settle prec t h' ps
      | .error op => .error op
    else .ok ⟨top, h, p :: ps⟩

/-- Puts a link on the stack: the top becomes pending under the link's operator. -/
def push (s : Stack) (l : Link) : Stack :=
  ⟨l.operand, l.operand.scanHeight, ⟨s.top, s.height, l.op⟩ :: s.below⟩

/-- Feeds the links one by one, then joins everything left; `0` is the weakest binding, so the
last settling empties the stack. -/
def feed : Stack → List Link → Except (Spanned BinaryOp) Expr
  | s, [] => (·.top) <$> settle 0 s.top s.height s.below
  | s, l :: ls =>
    match settle l.op.val.precedence s.top s.height s.below with
    | .ok s' => feed (s'.push l) ls
    | .error op => .error op

end Stack

/-- The tree of a chain, or the operator of the first join that would exceed `treeLimit`. -/
def Chain.assemble (c : Chain) : Except (Spanned BinaryOp) Expr :=
  (Stack.single c.first).feed c.links

end Formula
