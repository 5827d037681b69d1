import Formula.Text.Ascii
import Formula.Source.Position

/-! A cursor over a byte text: the offset of the next unread byte and its position, the walk of
the start position over the bytes before it; moving back walks again from the first byte. -/
namespace Formula

/-- A cursor over `text`, at `offset`, whose next byte stands at `pos`. -/
structure Cursor where
  text : ByteArray
  origin : Position
  offset : Nat
  pos : Position
  offset_le : offset ≤ text.size

namespace Cursor

/-- A cursor at the first byte of `text`, which stands at `origin`. -/
def start (text : ByteArray) (origin : Position := {}) : Cursor :=
  ⟨text, origin, 0, origin, Nat.zero_le _⟩

/-- The number of bytes not yet read. -/
def unread (c : Cursor) : Nat := c.text.size - c.offset

/-- Whether every byte has been read. -/
def atEnd (c : Cursor) : Bool := c.text.size ≤ c.offset

/-- The next byte, if there is one. -/
def peek? (c : Cursor) : Option UInt8 := c.text[c.offset]?

/-- The next byte, or NUL at the end of the text. -/
def peek (c : Cursor) : UInt8 := c.peek?.getD 0

/-- Moves over one byte; at the end of the text nothing moves. -/
def advance (c : Cursor) : Cursor :=
  if h : c.offset < c.text.size then
    { c with offset := c.offset + 1, pos := c.pos.next c.text[c.offset], offset_le := h }
  else c

/-- Advances `n` times. -/
def forward : Nat → Cursor → Cursor
  | 0, c => c
  | n + 1, c => forward n c.advance

/-- Back to the first byte and the start position. -/
def rewind (c : Cursor) : Cursor :=
  { c with offset := 0, pos := c.origin, offset_le := Nat.zero_le _ }

/-- Moves to `target`, clamped to the end of the text. Moving back starts again from the first
byte, so the position is walked anew rather than undone. -/
def seek (c : Cursor) (target : Nat) : Cursor :=
  let t := min target c.text.size
  if c.offset ≤ t then c.forward (t - c.offset) else c.rewind.forward t

/-- Advances while the next byte satisfies `p`. -/
def skipWhile (p : UInt8 → Bool) (c : Cursor) : Cursor := go c.unread c
where
  /-- At most `n` more bytes are passed over; `unread` bytes are all there are. -/
  go : Nat → Cursor → Cursor
    | 0, c => c
    | n + 1, c =>
      match c.peek? with
      | some b => if p b then go n c.advance else c
      | none => c

/-- Advances over blanks. -/
def skipBlanks (c : Cursor) : Cursor := c.skipWhile Ascii.isBlank

/-- The bytes passed over while the next byte satisfies `p`, and the cursor after them. -/
def takeWhile (p : UInt8 → Bool) (c : Cursor) : ByteArray × Cursor :=
  let d := c.skipWhile p
  (c.text.extract c.offset d.offset, d)

/-- Whether the unread text begins with `lit`; an empty literal begins nothing. -/
def startsWith (c : Cursor) (lit : ByteArray) : Bool :=
  0 < lit.size && c.text.extract c.offset (c.offset + lit.size) == lit

/-- Moves over `lit` if the unread text begins with it. -/
def eat? (c : Cursor) (lit : ByteArray) : Option Cursor :=
  if c.startsWith lit then some (c.seek (c.offset + lit.size)) else none

/-- Moves over the byte `b` if it is the next one. -/
def consume? (c : Cursor) (b : UInt8) : Option Cursor :=
  if c.peek? = some b then some c.advance else none

/-- The unread bytes. -/
def rest (c : Cursor) : ByteArray := c.text.extract c.offset c.text.size

/-- The bytes from `start` up to `stop`, both clamped to the text; empty when `stop` comes
first. -/
def slice (c : Cursor) (start stop : Nat) : ByteArray :=
  let s := min start c.text.size
  c.text.extract s (max s (min stop c.text.size))

/-- The span from `start` to the offset. -/
def spanFrom (c : Cursor) (start : Nat) : Span := ⟨start, c.offset⟩

/-- The location of the next byte, with the column cut to 32 bits. -/
def location (c : Cursor) : Location := ⟨c.offset, c.pos.line, c.pos.column.toUInt32⟩

/-- How a message names the next byte. -/
def describe (c : Cursor) : String :=
  match c.peek? with
  | some b => Ascii.describe b
  | none => "end of input"

end Cursor

end Formula
