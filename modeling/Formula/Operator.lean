/-! The operators: fourteen binary ones on seven levels, all associating to the left, and four
unary ones that stand before an operand or, when nothing that could start one follows, after it. -/
namespace Formula

/-- Binary operators, in the order the scanner tries their spellings. -/
inductive BinaryOp where
  | add | sub | mul | div | pow | eq | assign | ne | le | ge | lt | gt | and | or
deriving DecidableEq, Inhabited

namespace BinaryOp

/-- Every binary operator, in scanning order: `==` before `=`, `<=` before `<`, `>=` before
`>`, so a longer spelling wins over its prefix. -/
def all : List BinaryOp := [add, sub, mul, div, pow, eq, assign, ne, le, ge, lt, gt, and, or]

/-- The operator at position `i` of the scanning order. -/
def ofIndex? (i : Int) : Option BinaryOp := if 0 ≤ i then all[i.toNat]? else none

/-- How the operator is written. -/
def spelling : BinaryOp → String
  | add => "+" | sub => "-" | mul => "*" | div => "/" | pow => "^"
  | eq => "==" | assign => "=" | ne => "!=" | le => "<=" | ge => ">="
  | lt => "<" | gt => ">" | and => "&&" | or => "||"

/-- Binding strength: assignment `0`, or `1`, and `2`, equalities `3`, comparisons `4`, sums `5`,
products, quotients and powers `6`. -/
def precedence : BinaryOp → Nat
  | assign => 0
  | or => 1
  | and => 2
  | eq | ne => 3
  | lt | gt | le | ge => 4
  | add | sub => 5
  | mul | div | pow => 6

/-- The symbol that presentation markup shows: a mathematical sign for equality, inequality,
comparison and the logical connectives, the spelling otherwise. -/
def glyph : BinaryOp → String
  | eq => "≡"
  | ne => "≠"
  | le => "≤"
  | ge => "≥"
  | and => "∧"
  | or => "∨"
  | op => op.spelling

/-- The spelling shown for an operator that may be absent: `?` without one. -/
def spellingOf : Option BinaryOp → String
  | some op => op.spelling
  | none => "?"

/-- The precedence shown for an operator that may be absent: `0` without one. -/
def precedenceOf : Option BinaryOp → Nat
  | some op => op.precedence
  | none => 0

/-- The glyph shown for an operator that may be absent: `?` without one. -/
def glyphOf : Option BinaryOp → String
  | some op => op.glyph
  | none => "?"

end BinaryOp

/-- Unary operators, in the order the scanner tries their spellings. -/
inductive UnaryOp where
  | inc | dec | not | neg
deriving DecidableEq, Inhabited

namespace UnaryOp

/-- Every unary operator, in scanning order: `++` and `--` before `-`. -/
def all : List UnaryOp := [inc, dec, not, neg]

/-- The operator at position `i` of the scanning order. -/
def ofIndex? (i : Int) : Option UnaryOp := if 0 ≤ i then all[i.toNat]? else none

/-- How the operator is written. -/
def spelling : UnaryOp → String
  | inc => "++" | dec => "--" | not => "!" | neg => "-"

/-- The spelling shown for an operator that may be absent: `?` without one. -/
def spellingOf : Option UnaryOp → String
  | some op => op.spelling
  | none => "?"

end UnaryOp

/-- Whether a unary operator stands before its operand or after it. -/
inductive Affix where
  | pre
  | post
deriving DecidableEq, Inhabited

/-- The word that names where a unary operator stands. -/
def Affix.word : Affix → String
  | .pre => "prefix"
  | .post => "postfix"

end Formula
