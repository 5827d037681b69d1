import Formula.Text.Ascii
import Formula.Expr.Basic

/-! The source text of a tree: the plainest text that spells it out, with one space on each side
of a binary operator and nothing between the other lexemes. -/
namespace Formula.Expr

mutual

/-- Appends the source text of a tree to `out`. -/
def writeSource : Expr → String → String
  | unary op .pre x _, out => writeSource x (out ++ op.val.spelling)
  | unary op .post x _, out => writeSource x out ++ op.val.spelling
  | binary l op r _, out => writeSource r (writeSource l out ++ " " ++ op.val.spelling ++ " ")
  | group x _, out => writeSource x (out.push '(') |>.push ')'
  | array es _, out => writeSourceList es (out.push '[') |>.push ']'
  | call name as _, out => writeSourceList as (out ++ name.val |>.push '(') |>.push ')'
  | num v _, out => out ++ Ascii.intDecimal v.toInt
  | var name _, out => out ++ name

/-- Appends the source texts of a list of trees to `out`, separated by commas. -/
def writeSourceList : List Expr → String → String
  | [], out => out
  | [e], out => writeSource e out
  | e :: es, out => writeSourceList es (writeSource e out |>.push ',')

end

/-- The source text of a tree. -/
def toSource (e : Expr) : String := e.writeSource ""

end Formula.Expr
