import Formula.Text.Ascii
import Formula.Expr.Basic

/-! The dump of a tree: one line per node naming it and its span, two spaces deeper per level. -/
namespace Formula.Expr

/-- Appends the dump line of one node at depth `depth`. -/
def dumpLine (out : String) (depth : Nat) (text : String) (s : Span) : String :=
  out.pushn ' ' (2 * depth) ++ text ++ " [" ++ Ascii.natDecimal s.start ++ ", " ++
    Ascii.natDecimal s.stop ++ ")\n"

mutual

/-- Appends the dump of a tree at depth `depth` to `out`. -/
def writeDump (depth : Nat) : Expr → String → String
  | unary op a x s, out =>
    writeDump (depth + 1) x
      (dumpLine out depth ("UnaryExpression (" ++ op.val.spelling ++ ", " ++ a.word ++ ")") s)
  | binary l op r s, out =>
    writeDump (depth + 1) r
      (writeDump (depth + 1) l (dumpLine out depth ("BinaryExpression (" ++ op.val.spelling ++ ")") s))
  | group x s, out => writeDump (depth + 1) x (dumpLine out depth "GroupedExpression" s)
  | array es s, out => writeDumpList (depth + 1) es (dumpLine out depth "ArrayExpression" s)
  | call name as s, out =>
    writeDumpList (depth + 1) as (dumpLine out depth ("FunctionCall \"" ++ name.val ++ "\"") s)
  | num v s, out => dumpLine out depth ("NumberLiteral " ++ Ascii.intDecimal v.toInt) s
  | var name s, out => dumpLine out depth ("Identifier \"" ++ name ++ "\"") s

/-- Appends the dumps of a list of trees at depth `depth` to `out`. -/
def writeDumpList (depth : Nat) : List Expr → String → String
  | [], out => out
  | e :: es, out => writeDumpList depth es (writeDump depth e out)

end

/-- The dump of a tree. -/
def dump (e : Expr) : String := writeDump 0 e ""

end Formula.Expr
