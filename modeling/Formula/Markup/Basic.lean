import Formula.Text.Ascii
import Formula.Expr.Basic

/-! Presentation markup, the shape MathML presents: a quotient becomes a fraction, a power a
superscript and every other operation a row; groups leave no trace. -/
namespace Formula.Markup

/-- The kinds of markup elements. -/
inductive Kind where
  | row | fraction | superscript | number | identifier | operator
deriving DecidableEq, Inhabited

namespace Kind

/-- Every kind, in a fixed order. -/
def all : List Kind := [row, fraction, superscript, number, identifier, operator]

/-- The kind at position `i` of `all`. -/
def ofIndex? (i : Int) : Option Kind := if 0 ≤ i then all[i.toNat]? else none

/-- The MathML tag of a kind. -/
def tag : Kind → String
  | row => "mrow"
  | fraction => "mfrac"
  | superscript => "msup"
  | number => "mn"
  | identifier => "mi"
  | operator => "mo"

/-- The tag for a kind that may be absent: a missing kind is shown as a row. -/
def tagOf : Option Kind → String
  | some k => k.tag
  | none => "mrow"

/-- Numbers, names and operators are leaves and show their text; the other kinds show their
children. -/
def isLeaf : Kind → Bool
  | number | identifier | operator => true
  | row | fraction | superscript => false

end Kind

/-- A markup element: its kind, its text and its children. A leaf shows only its text and any
other element only its children, but either may hold both. -/
structure Element where
  kind : Kind
  text : ByteArray
  children : List Element
deriving Inhabited

namespace Element

/-- A leaf of kind `k` showing `s`. -/
def leaf (k : Kind) (s : String) : Element := ⟨k, s.toUTF8, []⟩

/-- An operator leaf. -/
def glyph (s : String) : Element := leaf .operator s

/-- A row of elements. -/
def row (es : List Element) : Element := ⟨.row, ByteArray.empty, es⟩

mutual

/-- Whether two elements agree in kind, text and children. -/
def same : Element → Element → Bool
  | ⟨k, t, cs⟩, ⟨k', t', cs'⟩ => k == k' && t == t' && sameList cs cs'

/-- Whether two lists of elements agree pairwise. -/
def sameList : List Element → List Element → Bool
  | [], [] => true
  | e :: es, e' :: es' => same e e' && sameList es es'
  | _, _ => false

end

end Element

mutual

/-- The markup of a tree. -/
def ofExpr : Expr → Element
  | .unary op .pre x _ => Element.row [Element.glyph op.val.spelling, ofExpr x]
  | .unary op .post x _ => Element.row [ofExpr x, Element.glyph op.val.spelling]
  | .binary l op r _ =>
    match op.val with
    | .div => ⟨.fraction, ByteArray.empty, [ofExpr l, ofExpr r]⟩
    | .pow => ⟨.superscript, ByteArray.empty, [ofExpr l, ofExpr r]⟩
    | o => Element.row [ofExpr l, Element.glyph o.glyph, ofExpr r]
  | .group x _ => ofExpr x
  | .array es _ => Element.row (Element.glyph "[" :: ofItems es ++ [Element.glyph "]"])
  | .call name as _ => Element.row (Element.leaf .identifier name.val :: ofExprList as)
  | .num v _ => Element.leaf .number (Ascii.intDecimal v.toInt)
  | .var name _ => Element.leaf .identifier name

/-- The markup of each tree of a list. -/
def ofExprList : List Expr → List Element
  | [] => []
  | e :: es => ofExpr e :: ofExprList es

/-- The markup of the items of an array, with a comma glyph between neighbours. -/
def ofItems : List Expr → List Element
  | [] => []
  | [e] => [ofExpr e]
  | e :: es => ofExpr e :: Element.glyph "," :: ofItems es

end

end Formula.Markup
