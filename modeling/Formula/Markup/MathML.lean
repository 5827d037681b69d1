import Formula.Markup.Basic

/-! MathML text of markup, on one line or with every tag on a line of its own two spaces deeper
per level, perhaps wrapped in a `math` element. -/
namespace Formula.Markup

/-- How MathML text is laid out. -/
structure Layout where
  wrap : Bool := true
  pretty : Bool := false
deriving Inhabited

/-- The MathML namespace. -/
def namespaceUri : String := "http://www.w3.org/1998/Math/MathML"

/-- Appends `b` to `out`, written as an entity when it is `&`, `<`, `>`, `"` or `'`. -/
def escapeByte (out : ByteArray) (b : UInt8) : ByteArray :=
  if b = 38 then out ++ "&amp;".toUTF8
  else if b = 60 then out ++ "&lt;".toUTF8
  else if b = 62 then out ++ "&gt;".toUTF8
  else if b = 34 then out ++ "&quot;".toUTF8
  else if b = 39 then out ++ "&apos;".toUTF8
  else out.push b

/-- Text with the five XML special bytes written as entities; all other bytes stay as they are. -/
def escape (text : ByteArray) : ByteArray := text.foldl escapeByte ByteArray.empty

namespace Layout

/-- Appends the indentation of level `depth`. -/
def indent (l : Layout) (depth : Nat) (out : ByteArray) : ByteArray :=
  if l.pretty then out ++ ("".pushn ' ' (2 * depth)).toUTF8 else out

/-- Ends a line. -/
def newline (l : Layout) (out : ByteArray) : ByteArray :=
  if l.pretty then out.push 10 else out

/-- Appends an opening tag with optional attributes at level `depth`. -/
def openTag (l : Layout) (depth : Nat) (tag attrs : String) (out : ByteArray) : ByteArray :=
  let attrs := if attrs.isEmpty then "" else " " ++ attrs
  l.newline (l.indent depth out ++ ("<" ++ tag ++ attrs ++ ">").toUTF8)

/-- Appends a closing tag at level `depth`. -/
def closeTag (l : Layout) (depth : Nat) (tag : String) (out : ByteArray) : ByteArray :=
  l.newline (l.indent depth out ++ ("</" ++ tag ++ ">").toUTF8)

mutual

/-- Appends an element at level `depth`. -/
def writeElement (l : Layout) (depth : Nat) : Element → ByteArray → ByteArray
  | ⟨k, text, kids⟩, out =>
    if k.isLeaf then
      l.newline (l.indent depth out ++ ("<" ++ k.tag ++ ">").toUTF8 ++ escape text ++
        ("</" ++ k.tag ++ ">").toUTF8)
    else
      l.closeTag depth k.tag (l.writeList (depth + 1) kids (l.openTag depth k.tag "" out))

/-- Appends the elements of a list at level `depth`. -/
def writeList (l : Layout) (depth : Nat) : List Element → ByteArray → ByteArray
  | [], out => out
  | e :: es, out => l.writeList depth es (l.writeElement depth e out)

end

end Layout

/-- The MathML text of an element. -/
def Element.toMathML (e : Element) (l : Layout) : ByteArray :=
  if l.wrap then
    l.closeTag 0 "math"
      (l.writeElement 1 e (l.openTag 0 "math" ("xmlns=\"" ++ namespaceUri ++ "\"") ByteArray.empty))
  else
    l.writeElement 0 e ByteArray.empty

end Formula.Markup
