import Formula.Text.Ascii
import Formula.Expr.Basic

/-! The canonical text of a tree: one line, as `unExp(op, x)` or `binExp(l, op, r)`, that shows its
structure and nothing of its layout or its groups. -/
namespace Formula.Expr

mutual

/-- Appends the canonical text of a tree to `out`. -/
def writeCanonical : Expr → String → String
  | unary op .pre x _, out => writeCanonical x (out ++ "unExp(" ++ op.val.spelling ++ ", ") ++ ")"
  | unary op .post x _, out => writeCanonical x (out ++ "unExp(") ++ ", " ++ op.val.spelling ++ ")"
  | binary l op r _, out =>
    writeCanonical r (writeCanonical l (out ++ "binExp(") ++ ", " ++ op.val.spelling ++ ", ") ++ ")"
  | group x _, out => writeCanonical x out
  | array es _, out => writeCanonicalList es (out ++ "[") ++ "]"
  | call name as _, out => writeCanonicalList as (out ++ name.val ++ "(") ++ ")"
  | num v _, out => out ++ Ascii.intDecimal v.toInt
  | var name _, out => out ++ name

/-- Appends the canonical texts of a list of trees to `out`, separated by `, `. -/
def writeCanonicalList : List Expr → String → String
  | [], out => out
  | [e], out => writeCanonical e out
  | e :: es, out => writeCanonicalList es (writeCanonical e out ++ ", ")

end

/-- The canonical text of a tree. -/
def canonical (e : Expr) : String := e.writeCanonical ""

end Formula.Expr
