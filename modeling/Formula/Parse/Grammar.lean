import Formula.Lexeme
import Formula.Parse.Chain

/-! The grammar of expressions, read by recursive descent straight off a cursor with at most
`nestingLimit` expressions open; a lenient reading repairs a missing closer or trailing text. -/
namespace Formula

/-- How a reading treats a missing closer and text after the expression. -/
inductive Mode where
  | strict
  | lenient
deriving DecidableEq, Inhabited

/-- The most expressions that may be open at once. -/
def nestingLimit : Nat := 256

/-- The two kinds of brackets that enclose sub-expressions. -/
inductive Bracket where
  | round
  | square
deriving DecidableEq

/-- The opening byte of a bracket. -/
def Bracket.opener : Bracket → UInt8
  | .round => 40
  | .square => 91

/-- The closing byte of a bracket. -/
def Bracket.closer : Bracket → UInt8
  | .round => 41
  | .square => 93

/-- Where reading stands: the cursor, and the warnings issued so far, oldest first. -/
structure Reading where
  cursor : Cursor
  warnings : List Diagnostic

/-- A reading step. It gives a value or fails with an error; either way its state keeps the
warnings issued before. -/
abbrev Reader := EStateM Diagnostic Reading

namespace Reader

/-- The cursor. -/
def cursor : Reader Cursor := fun r => .ok r.cursor r

/-- Moves the cursor to `c`. -/
def moveTo (c : Cursor) : Reader Unit := fun r => .ok () { r with cursor := c }

/-- Issues a warning. -/
def warn (d : Diagnostic) : Reader Unit := fun r => .ok () { r with warnings := r.warnings ++ [d] }

/-- Passes over blanks. -/
def blanks : Reader Unit := fun r => .ok () { r with cursor := r.cursor.skipBlanks }

/-- Runs a scanner at the cursor: on success the cursor moves past the lexeme. -/
def scan {α : Type} (s : Cursor → Except Diagnostic (α × Cursor)) : Reader α := fun r =>
  match s r.cursor with
  | .ok (a, c) => .ok a { r with cursor := c }
  | .error d => .error d r

/-- Fails with an error of kind `f` at the cursor. -/
def failHere {α : Type} (message : String) (f : Fault) : Reader α := fun r =>
  .error (.error r.cursor.location message f) r

/-- Expects the closer of `b`, after blanks; `openAt` is where the bracket opened. A strict
reading fails without it, a lenient one goes on with a warning. -/
def closer (mode : Mode) (b : Bracket) (openAt : Nat) : Reader Unit := do
  blanks
  let c ← cursor
  if c.peek = b.closer then
    moveTo c.advance
  else
    let what := "'" ++ (String.singleton (Ascii.toChar b.closer)).push '\'' ++ " to close '" ++
      (String.singleton (Ascii.toChar b.opener)).push '\'' ++ " at offset " ++
      Ascii.natDecimal openAt
    match mode with
    | .strict =>
      throw (.error c.location ("expected " ++ what ++ " but found " ++ c.describe)
        .unterminatedStructure)
    | .lenient => warn (.warning c.location ("missing " ++ what) .unterminatedStructure)

/-- Reads `expr`s separated by commas, at least one. Each comma takes a byte, so `n`, the
unread byte count, bounds their number. -/
def items (expr : Reader Expr) : Nat → Array Expr → Reader (List Expr)
  | n, acc => do
    let e ← expr
    blanks
    let c ← cursor
    match n with
    | 0 => pure (acc.push e).toList
    | k + 1 =>
      match c.eat? ",".toUTF8 with
      | some d => moveTo d; items expr k (acc.push e)
      | none => pure (acc.push e).toList

end Reader

namespace Cursor

/-- Whether a call starts here: a name followed at once by `(`. -/
def opensCall (c : Cursor) : Bool :=
  Ascii.isLetter c.peek &&
    match c.identifier with
    | .ok (_, d) => d.peek = 40
    | .error _ => false

/-- A unary operator standing after an operand. It is refused when its spelling is shorter than
the binary operator that starts here, and when an operand follows it: a byte that opens a
primary, or, when its spelling is also that of a binary operator, another unary operator. -/
def postfixOp? (c : Cursor) : Option (Spanned UnaryOp × Cursor) :=
  match c.unaryOp? with
  | none => none
  | some (op, d) =>
    let length := d.offset - c.offset
    if length < c.binaryLength then none
    else
      let e := d.skipBlanks
      if Ascii.opensPrimary e.peek || (length == c.binaryLength && e.unaryOp?.isSome) then none
      else some (op, d)

end Cursor

namespace Reader
open Cursor

/-- Reads a primary expression; `expr` reads the expressions it encloses. -/
def primary (mode : Mode) (expr : Reader Expr) : Reader Expr := do
  blanks
  let c ← cursor
  let start := c.offset
  match c.eat? "(".toUTF8 with
  | some d =>
    moveTo d
    let inner ← expr
    closer mode .round start
    return .group inner ((← cursor).spanFrom start)
  | none =>
  match c.eat? "[".toUTF8 with
  | some d =>
    moveTo d
    let elems ← items expr d.unread #[]
    closer mode .square start
    return .array elems ((← cursor).spanFrom start)
  | none =>
  if c.opensCall then
    let name ← scan Cursor.identifier
    let d ← cursor
    let e := d.advance.skipBlanks
    moveTo e
    let args ← if e.peek = 41 then pure [] else items expr e.unread #[]
    closer mode .round d.offset
    return .call name args ((← cursor).spanFrom start)
  else if Ascii.isDigit c.peek then
    let n ← scan Cursor.number
    return .num n.val n.span
  else if Ascii.isLetter c.peek then
    let n ← scan Cursor.identifier
    return .var n.val n.span
  else
    failHere ("expected primary expression but found " ++ c.describe) .unexpectedCharacter

/-- Reads a primary with an optional unary operator before or after it. -/
def unary (mode : Mode) (expr : Reader Expr) : Reader Expr := do
  blanks
  let c ← cursor
  let start := c.offset
  match c.unaryOp? with
  | some (op, d) =>
    moveTo d
    let x ← primary mode expr
    return .unary op .pre x ((← cursor).spanFrom start)
  | none =>
    let x ← primary mode expr
    match (← cursor).postfixOp? with
    | some (op, d) =>
      moveTo d
      return .unary op .post x (d.spanFrom start)
    | none => return x

/-- Reads the links of a chain while a binary operator follows. Each operator takes a byte, so
`n`, the unread byte count, bounds their number. -/
def links (operand : Reader Expr) : Nat → Array Link → Reader (List Link)
  | 0, acc => pure acc.toList
  | n + 1, acc => do
    match (← cursor).binaryOp? with
    | none => pure acc.toList
    | some (op, d) =>
      moveTo d
      let u ← operand
      blanks
      links operand n (acc.push ⟨op, u⟩)

/-- Reads one level: a chain of unary operands, assembled into a tree. A join that would exceed
`treeLimit` fails at its operator. -/
def level (mode : Mode) (expr : Reader Expr) : Reader Expr := do
  let first ← unary mode expr
  blanks
  let ls ← links (unary mode expr) (← cursor).unread #[]
  match (Chain.mk first ls).assemble with
  | .ok e => return e
  | .error op =>
    throw (.error ((← cursor).seek op.span.start).location
      ("expression tree too deep (limit: " ++ Ascii.natDecimal treeLimit ++ ")") .nestingTooDeep)

/-- Reads an expression when `budget` more expressions may open: with none left it fails. The
grammar, with blanks allowed between lexemes but not before a call's `(` or a postfix operator:

    expression := unary (binary-operator unary)*
    unary      := unary-operator primary | primary unary-operator?
    primary    := "(" expression ")" | "[" expression ("," expression)* "]"
                | name "(" (expression ("," expression)*)? ")" | number | name
-/
def expression (mode : Mode) : Nat → Reader Expr
  | 0 =>
    failHere ("expression nesting too deep (limit: " ++ Ascii.natDecimal nestingLimit ++ ")")
      .nestingTooDeep
  | budget + 1 => level mode (expression mode budget)

/-- Reads a whole text: an expression, then blanks, then the end. At most `budget` expressions
may be open at once. -/
def document (mode : Mode) (budget : Nat) : Reader Expr := do
  let e ← expression mode budget
  blanks
  let c ← cursor
  if c.atEnd then
    return e
  else
    match mode with
    | .strict => failHere ("unexpected " ++ c.describe ++ " after expression") .trailingInput
    | .lenient =>
      warn (.warning c.location ("ignored trailing input starting at " ++ c.describe)
        .trailingInput)
      return e

end Reader

/-- What reading a text gives: the tree or the error, and the warnings issued before. -/
structure Parsed where
  result : Except Diagnostic Expr
  warnings : List Diagnostic

/-- The diagnostics of a reading in the order they were issued: the warnings, then the error. -/
def Parsed.diagnostics (p : Parsed) : List Diagnostic :=
  match p.result with
  | .ok _ => p.warnings
  | .error d => p.warnings ++ [d]

/-- Reads a text as one expression, with at most `budget` expressions open at once. -/
def Expr.parseWithin (budget : Nat) (text : ByteArray) (mode : Mode) : Parsed :=
  match (Reader.document mode budget).run ⟨Cursor.start text, []⟩ with
  | .ok e r => ⟨.ok e, r.warnings⟩
  | .error d r => ⟨.error d, r.warnings⟩

/-- Reads a text as one expression, with at most `nestingLimit` expressions open at once. -/
def Expr.parse (text : ByteArray) (mode : Mode) : Parsed := Expr.parseWithin nestingLimit text mode

end Formula
