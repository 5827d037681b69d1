/-! Positions (a wrapping 32-bit line and 64-bit column), locations that pin a diagnostic to an
offset, and half-open byte spans. -/
namespace Formula

/-- A line and a column. The column counts bytes from `0` since the last line feed. -/
structure Position where
  line : UInt32 := 1
  column : UInt64 := 0
deriving DecidableEq, Inhabited

namespace Position

/-- The position after one byte: a line feed starts the next line at column `0`, and any other
byte moves one column on. -/
def next (p : Position) (b : UInt8) : Position :=
  if b = 10 then { line := p.line + 1, column := 0 } else { p with column := p.column + 1 }

/-- The position after a run of bytes. -/
def walk (p : Position) (bs : List UInt8) : Position := bs.foldl next p

@[simp] theorem walk_nil (p : Position) : p.walk [] = p := rfl

@[simp] theorem walk_cons (p : Position) (b : UInt8) (bs : List UInt8) :
    p.walk (b :: bs) = (p.next b).walk bs := rfl

@[simp] theorem walk_append (p : Position) (xs ys : List UInt8) :
    p.walk (xs ++ ys) = (p.walk xs).walk ys := by
  simp [walk, List.foldl_append]

end Position

/-- A point of the text as a diagnostic reports it: the byte offset, the line, and the column
cut to its low 32 bits. -/
structure Location where
  offset : Nat
  line : UInt32
  column : UInt32
deriving DecidableEq, Inhabited

/-- A half-open byte range from `start` up to, not including, `stop`. -/
structure Span where
  start : Nat
  stop : Nat
deriving DecidableEq, Inhabited

/-- The span from the start of `first` to the end of `last`. -/
def Span.join (first last : Span) : Span := ⟨first.start, last.stop⟩

/-- A value together with the span of text it was read from. -/
structure Spanned (α : Type) where
  val : α
  span : Span
deriving DecidableEq

end Formula
