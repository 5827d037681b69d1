import Formula.Source.Position
import Formula.Operator

/-! Expression trees with the span of every node, operator and call name. Two trees have the same
shape when they agree everywhere but in their spans. -/
namespace Formula

/-- An expression tree with the spans of its parts. -/
inductive Expr where
  | unary (op : Spanned UnaryOp) (affix : Affix) (operand : Expr) (span : Span)
  | binary (left : Expr) (op : Spanned BinaryOp) (right : Expr) (span : Span)
  | group (inner : Expr) (span : Span)
  | array (elems : List Expr) (span : Span)
  | call (name : Spanned String) (args : List Expr) (span : Span)
  | num (value : Int64) (span : Span)
  | var (name : String) (span : Span)
deriving Inhabited

namespace Expr

/-- The span of text the tree was read from. -/
def span : Expr → Span
  | unary _ _ _ s | binary _ _ _ s | group _ s | array _ s | call _ _ s | num _ s | var _ s => s

/-- The binary node over two trees, spanning from the start of the left one to the end of the
right one. -/
def join (left : Expr) (op : Spanned BinaryOp) (right : Expr) : Expr :=
  binary left op right (left.span.join right.span)

/-- The subtrees of a node, left to right. The name of a call is not a subtree. -/
def children : Expr → List Expr
  | unary _ _ x _ => [x]
  | binary l _ r _ => [l, r]
  | group x _ => [x]
  | array es _ => es
  | call _ as _ => as
  | num .. | var .. => []

mutual

/-- Whether two trees agree in everything but their spans. -/
def sameShape : Expr → Expr → Bool
  | unary o a x _, unary o' a' x' _ => o.val == o'.val && a == a' && sameShape x x'
  | binary l o r _, binary l' o' r' _ => o.val == o'.val && sameShape l l' && sameShape r r'
  | group x _, group x' _ => sameShape x x'
  | array es _, array es' _ => sameShapeList es es'
  | call n as _, call n' as' _ => n.val == n'.val && sameShapeList as as'
  | num v _, num v' _ => v == v'
  | var n _, var n' _ => n == n'
  | _, _ => false

/-- Whether two lists of trees agree pairwise in everything but their spans. -/
def sameShapeList : List Expr → List Expr → Bool
  | [], [] => true
  | e :: es, e' :: es' => sameShape e e' && sameShapeList es es'
  | _, _ => false

end

mutual

/-- The number of nodes. -/
def size : Expr → Nat
  | unary _ _ x _ => x.size + 1
  | binary l _ r _ => l.size + r.size + 1
  | group x _ => x.size + 1
  | array es _ => sizeList es + 1
  | call _ as _ => sizeList as + 1
  | num .. | var .. => 1

/-- The number of nodes of a list of trees. -/
def sizeList : List Expr → Nat
  | [] => 0
  | e :: es => e.size + sizeList es

end

mutual

/-- The height: `1` for a node without subtrees, else one more than its tallest subtree. -/
def height : Expr → Nat
  | unary _ _ x _ => x.height + 1
  | binary l _ r _ => max l.height r.height + 1
  | group x _ => x.height + 1
  | array es _ => heightList es + 1
  | call _ as _ => heightList as + 1
  | num .. | var .. => 1

/-- The height of the tallest tree of a list, `0` for none. -/
def heightList : List Expr → Nat
  | [] => 0
  | e :: es => max e.height (heightList es)

end

mutual

/-- The nesting depth: the most groups, arrays and calls on one path from the root to a
leaf. -/
def nesting : Expr → Nat
  | unary _ _ x _ => x.nesting
  | binary l _ r _ => max l.nesting r.nesting
  | group x _ => x.nesting + 1
  | array es _ => nestingList es + 1
  | call _ as _ => nestingList as + 1
  | num .. | var .. => 0

/-- The greatest nesting depth of a list of trees, `0` for none. -/
def nestingList : List Expr → Nat
  | [] => 0
  | e :: es => max e.nesting (nestingList es)

end

mutual

/-- The tree with every group replaced by what it encloses. -/
def ungroup : Expr → Expr
  | unary op a x s => unary op a x.ungroup s
  | binary l op r s => binary l.ungroup op r.ungroup s
  | group x _ => x.ungroup
  | array es s => array (ungroupList es) s
  | call name as s => call name (ungroupList as) s
  | e@(num ..) | e@(var ..) => e

/-- Every tree of a list with its groups removed. -/
def ungroupList : List Expr → List Expr
  | [] => []
  | e :: es => e.ungroup :: ungroupList es

end

/-- The height found by a walk with a work list of nodes and their levels, keeping the deepest
level met; no call stack as deep as the tree is needed. Each step takes one node off the list,
so `size` steps see every node. -/
def scanHeight (e : Expr) : Nat := go e.size [(e, 1)] 0
where
  /-- Walks `n` more nodes of the work list; `best` is the deepest level met. -/
  go : Nat → List (Expr × Nat) → Nat → Nat
    | 0, _, best => best
    | _, [], best => best
    | n + 1, (x, level) :: rest, best =>
      go n (x.children.map (·, level + 1) ++ rest) (max best level)

end Expr

end Formula
