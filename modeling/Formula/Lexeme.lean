import Formula.Source.Cursor
import Formula.Diagnostic
import Formula.Operator

/-! The lexemes read straight off a cursor: signed 64-bit decimal numbers, names and operators. A
scanner that fails leaves the cursor where it was. -/
namespace Formula

namespace Ascii

/-- Bytes that can begin a primary expression: `(`, `[`, a digit or a letter. -/
def opensPrimary (b : UInt8) : Bool := b == 40 || b == 91 || isDigit b || isLetter b

end Ascii

namespace Cursor

/-- Reads a decimal integer: an optional `-`, then a run of digits, leading zeros allowed.
Without a digit after the sign it fails where the digit should be; when the value does not fit
in 64 bits it fails at the start. Either way the cursor stays where it was. -/
def number (c : Cursor) : Except Diagnostic (Spanned Int64 × Cursor) :=
  let signed := c.consume? 45
  let c1 := signed.getD c
  let (digits, c2) := c1.takeWhile Ascii.isDigit
  if digits.size = 0 then
    .error (.error c1.location ("expected digit but found " ++ c1.describe) .unexpectedCharacter)
  else
    let magnitude : Int := Ascii.digitsValue digits
    let value := if signed.isSome then -magnitude else magnitude
    if h : Int64.minValue.toInt ≤ value ∧ value ≤ Int64.maxValue.toInt then
      .ok (⟨Int64.ofIntLE value h.1 h.2, c2.spanFrom c.offset⟩, c2)
    else
      .error (.error c.location
        ("invalid number '" ++ Ascii.toText (c.slice c.offset c2.offset) ++
          "': out of range for a 64-bit integer") .invalidNumber)

/-- Reads a name: a letter, then letters, digits and underscores. -/
def identifier (c : Cursor) : Except Diagnostic (Spanned String × Cursor) :=
  if Ascii.isLetter c.peek then
    let (bytes, d) := c.takeWhile Ascii.isNameByte
    .ok (⟨Ascii.toText bytes, d.spanFrom c.offset⟩, d)
  else
    .error (.error c.location ("expected identifier but found " ++ c.describe)
      .expectedIdentifier)

/-- Reads the first operator of `ops` whose spelling the unread text begins with. -/
def operator? {α : Type} (spelling : α → String) (c : Cursor) : List α → Option (Spanned α × Cursor)
  | [] => none
  | op :: ops =>
    match c.eat? (spelling op).toUTF8 with
    | some d => some (⟨op, d.spanFrom c.offset⟩, d)
    | none => c.operator? spelling ops

/-- Reads a binary operator, trying the spellings in scanning order. -/
def binaryOp? (c : Cursor) : Option (Spanned BinaryOp × Cursor) :=
  c.operator? BinaryOp.spelling BinaryOp.all

/-- Reads a unary operator, trying the spellings in scanning order. -/
def unaryOp? (c : Cursor) : Option (Spanned UnaryOp × Cursor) :=
  c.operator? UnaryOp.spelling UnaryOp.all

/-- The length of the binary operator that the unread text begins with, `0` if none. -/
def binaryLength (c : Cursor) : Nat :=
  match BinaryOp.all.find? (fun op => c.startsWith op.spelling.toUTF8) with
  | some op => op.spelling.utf8ByteSize
  | none => 0

end Cursor

end Formula
