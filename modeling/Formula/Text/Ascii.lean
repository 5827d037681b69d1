/-! ASCII classes of a byte (digits, letters, name bytes and blanks, none from `0x80` up), the value
of a digit run, how a message names a byte, and decimal numerals. -/
namespace Formula.Ascii

/-- The bytes `0` to `9`. -/
def isDigit (b : UInt8) : Bool := 48 ≤ b && b ≤ 57

/-- The bytes `a` to `z` and `A` to `Z`. -/
def isLetter (b : UInt8) : Bool := (97 ≤ b && b ≤ 122) || (65 ≤ b && b ≤ 90)

/-- A letter or a digit. -/
def isAlnum (b : UInt8) : Bool := isLetter b || isDigit b

/-- A byte that may follow the first letter of a name: a letter, a digit or `_`. -/
def isNameByte (b : UInt8) : Bool := isAlnum b || b == 95

/-- Blanks are space, tab, line feed and carriage return; other control bytes are significant. -/
def isBlank (b : UInt8) : Bool := b == 32 || b == 9 || b == 10 || b == 13

/-- The character of an ASCII byte. -/
def toChar (b : UInt8) : Char := Char.ofNat b.toNat

/-- The text of ASCII bytes. -/
def toText (bs : ByteArray) : String := bs.foldl (fun s b => s.push (toChar b)) ""

/-- The value of a run of decimal digits. -/
def digitsValue (bs : ByteArray) : Nat := bs.foldl (fun n b => 10 * n + (b.toNat - 48)) 0

/-- Upper-case hexadecimal digit of a value below 16. -/
def hexDigit (n : Nat) : Char :=
  if n < 10 then Char.ofNat (48 + n) else Char.ofNat (55 + n)

/-- How a message names a byte: a printable ASCII byte between quotes, any other byte as a
quoted escape with two upper-case hexadecimal digits. -/
def describe (b : UInt8) : String :=
  if b < 32 || 127 ≤ b then
    "'\\x" ++ (String.singleton (hexDigit (b.toNat / 16))).push (hexDigit (b.toNat % 16)) ++ "'"
  else
    "'" ++ (String.singleton (toChar b)).push '\''

/-- Decimal numeral of a natural number. -/
def natDecimal (n : Nat) : String := String.ofList (Nat.toDigits 10 n)

/-- Decimal numeral of an integer, with a leading `-` below zero. -/
def intDecimal (i : Int) : String :=
  if i < 0 then "-" ++ natDecimal i.natAbs else natDecimal i.natAbs

end Formula.Ascii
